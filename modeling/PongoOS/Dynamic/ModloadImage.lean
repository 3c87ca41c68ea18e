import PongoOS.Dynamic.ModloadLink

/-!
# What `modload_cmd` makes of a well-formed upload

The segments are laid out from the lowest one on, and over them the slots that
the tables of relocations name.
-/

namespace PongoOS

open MachO

/-! ## Well-formed uploads -/

def externTable (upload : ByteMemory) (dysymtab : ℕ) : List Relocation :=
  (List.range (nextrel upload dysymtab)).map (externAt upload dysymtab)

def localTable (upload : ByteMemory) (dysymtab : ℕ) : List Relocation :=
  (List.range (nlocrel upload dysymtab)).map (localAt upload dysymtab)

/-- The entries for slots of eight bytes. -/
def moduleSlots (upload : ByteMemory) (dysymtab : ℕ) : List Relocation :=
  ((externTable upload dysymtab).filter fun r => IsExternSlot r) ++
    (localTable upload dysymtab).filter fun r => IsLocalSlot r

/-- The table lies in the segment, as far from the start of the image as from the
start of the file. -/
def LiesIn (base : ℕ) (t : ℕ × ℕ) (sg : Segment) : Prop :=
  sg.fileoff = sg.vmaddr - base ∧ sg.fileoff ≤ t.1 ∧
    t.1 + t.2 ≤ sg.fileoff + sg.filesize

instance (base : ℕ) (t : ℕ × ℕ) (sg : Segment) : Decidable (LiesIn base t sg) :=
  inferInstanceAs (Decidable (_ ∧ _))

def TableMapped (upload : ByteMemory) (base : ℕ) (t : ℕ × ℕ) : Prop :=
  t.2 = 0 ∨ ∃ sg ∈ moduleSegments upload, LiesIn base t sg

/-- `VM_PROT_READ`. -/
def CanRead (sg : Segment) : Prop := sg.initprot % 2 = 1

instance (sg : Segment) : Decidable (CanRead sg) :=
  inferInstanceAs (Decidable (_ = _))

/-- `base` is the lowest address of a segment, `symtab` and `dysymtab` are load
commands, and `names` are the names of the symbols.  These are in a segment with
the right to read, without which it would not be mapped. -/
structure WellFormedModule (upload : ByteMemory)
    (recvCount base symtab dysymtab : ℕ) (names : ℕ → CString) : Prop where
  recvCount_ge : 0x4000 ≤ recvCount
  magic : upload.u32 0 = magic64
  filetype : upload.u32 12 = mhKextBundle
  base_least : IsLeast {v | ∃ sg ∈ moduleSegments upload, sg.vmaddr = v} base
  segment_aligned : ∀ sg ∈ moduleSegments upload, sg.vmaddr % pageSize = 0
  segment_end : ∀ sg ∈ moduleSegments upload, sg.vmaddr + sg.vmsize < 2 ^ 64
  segment_file : ∀ sg ∈ moduleSegments upload, sg.filesize ≤ sg.vmsize ∧
    sg.fileoff + sg.filesize ≤ recvCount
  segments_apart : (moduleSegments upload).Pairwise fun s t =>
    s.vmaddr + s.vmsize ≤ t.vmaddr ∨ t.vmaddr + t.vmsize ≤ s.vmaddr
  symtab_last : lastSymtab upload = some symtab
  dysymtab_last : lastDysymtab upload = some dysymtab
  strings_mapped : ∃ sg ∈ moduleSegments upload, CanRead sg ∧
    LiesIn base (stroff upload symtab, strsize upload symtab) sg
  tables_mapped : ∀ t ∈ moduleTables upload symtab dysymtab,
    TableMapped upload base t
  name : ∀ i < nsyms upload symtab,
    upload.Holds (stroff upload symtab + (symbolAt upload symtab i).strx)
        ((names i).bytes ++ [0]) ∧
      (symbolAt upload symtab i).strx + (names i).bytes.length <
        strsize upload symtab
  looked_unique : ∀ i < nsyms upload symtab, ∀ j < nsyms upload symtab,
    names i = names j → IsLooked (names i) → i = j
  entry : ∃ i < nsyms upload symtab, names i = moduleEntryName ∧
    ∃ sg ∈ moduleSegments upload,
      sg.vmaddr ≤ (symbolAt upload symtab i).value ∧
      (symbolAt upload symtab i).value < sg.vmaddr + sg.vmsize
  symbolnum_lt : ∀ r ∈ externTable upload dysymtab, IsExternSlot r →
    r.symbolnum < nsyms upload symtab
  slot_mapped : ∀ r ∈ moduleSlots upload dysymtab,
    ∃ sg ∈ moduleSegments upload, sg.vmaddr - base ≤ r.address ∧
      r.address + 8 ≤ sg.vmaddr - base + sg.vmsize
  slots_apart : (moduleSlots upload dysymtab).Pairwise
    fun r s => SlotsApart r.address s.address
  slots_outside : ∀ r ∈ moduleSlots upload dysymtab,
    OutsideTables (moduleTables upload symtab dysymtab) r.address

/-- There is memory and room for the image, and its external symbols are among
the exports, which are in the tables `T` and `Ts`. -/
structure ModloadReady (env : ModloadEnv) (base dysymtab : ℕ)
    (names : ℕ → CString) (T : ExportTable) (Ts : List ExportTable) :
    Prop where
  alloc : ∃ allocto,
    env.contig (allocationSize (moduleSize env.upload)) = .ok allocto ∧
    ∀ page < allocationSize (moduleSize env.upload), page % pageSize = 0 →
      IsRamPage env.toAddressSpace (allocto + page)
  cursor_ge : linearKvmBase ≤ env.cursor
  cursor_aligned : env.cursor % pageSize = 0
  room : ∀ sg ∈ moduleSegments env.upload,
    env.cursor + (sg.vmaddr - base + sg.vmsize) + 0x3fff ≤ linearKvmEnd
  recvCount_lt : env.recvCount < 2 ^ 32
  linked : Linked env.linker.exports T Ts
  api_eq : env.linker.api = T.base
  exports_lt : ∀ e ∈ allEntries (T :: Ts), e.2 < 2 ^ 64
  resolvable : ∀ r ∈ externTable env.upload dysymtab, IsExternSlot r →
    ∃ v, (allEntries (T :: Ts)).lookup (names r.symbolnum).bytes = some v ∧
      v ≠ 0

/-- What a segment of the file takes up: its part of the file, and zeros. -/
def segmentPiece (upload : ByteMemory) (base : ℕ) (sg : Segment) :
    Piece UInt8 where
  start := sg.vmaddr - base
  stop := sg.vmaddr - base + sg.vmsize
  value a :=
    if a - (sg.vmaddr - base) < sg.filesize then
      upload (sg.fileoff + (a - (sg.vmaddr - base)))
    else 0

/-- The segments laid out from the lowest one on, filled with zeros. -/
def plainImage (upload : ByteMemory) (base : ℕ) : ByteMemory :=
  Piece.layAll (fun _ => 0)
    ((moduleSegments upload).map (segmentPiece upload base))

/-! ## Segments and tables -/

section File

variable {upload f : ByteMemory} {recvCount base symtab dysymtab k : ℕ}
  {names : ℕ → CString} {sg : Segment} {t : ℕ × ℕ}

theorem mem_moduleSlots {r : Relocation} :
    r ∈ moduleSlots upload dysymtab ↔
      (r ∈ externTable upload dysymtab ∧ IsExternSlot r) ∨
        (r ∈ localTable upload dysymtab ∧ IsLocalSlot r) := by
  simp [moduleSlots]

/-! ### The layout -/

/-- A part of the file that is not longer than the segment is laid over zeros. -/
theorem layAll_segmentPieces_eq {segs : List Segment}
    (hsegs : ∀ sg ∈ segs, base ≤ sg.vmaddr ∧ sg.vmaddr < 2 ^ 64 ∧
      sg.filesize ≤ sg.vmsize) :
    Piece.layAll f (segs.flatMap (segmentPieces upload base)) =
      Piece.layAll f (segs.map (segmentPiece upload base)) := by
  induction segs generalizing f with
  | nil => rfl
  | cons sg segs ih =>
      obtain ⟨⟨hbase, hlt, hsize⟩, hrest⟩ := List.forall_mem_cons.mp hsegs
      have hfirst : Piece.layAll f (segmentPieces upload base sg) =
          Piece.lay f (segmentPiece upload base sg) := by
        funext a
        rw [segmentPieces, sub64_of_le hbase hlt, Piece.layAll_cons,
          Piece.layAll_cons, Piece.layAll_nil, Piece.lay_mk, Piece.lay_mk,
          segmentPiece, Piece.lay_mk]
        by_cases hin : sg.vmaddr - base ≤ a ∧ a < sg.vmaddr - base + sg.vmsize
        · rw [if_pos hin, if_pos hin]
          by_cases hfile : a < sg.vmaddr - base + sg.filesize
          · rw [if_pos ⟨hin.1, hfile⟩, if_pos (by omega)]
          · rw [if_neg (by omega), if_neg (by omega)]
        · rw [if_neg (by omega), if_neg hin, if_neg hin]
      rw [List.flatMap_cons, Piece.layAll_append, hfirst, List.map_cons,
        Piece.layAll_cons]
      exact ih hrest

theorem segmentPieces_apart
    (hbase : ∀ sg ∈ moduleSegments upload, base ≤ sg.vmaddr)
    (hapart : (moduleSegments upload).Pairwise fun s t =>
      s.vmaddr + s.vmsize ≤ t.vmaddr ∨ t.vmaddr + t.vmsize ≤ s.vmaddr) :
    ((moduleSegments upload).map (segmentPiece upload base)).Pairwise
      Piece.Apart := by
  refine List.pairwise_map.mpr (hapart.imp_of_mem ?_)
  rintro s t hs ht hapart a ⟨ha, ha'⟩
  have hs := hbase s hs
  have ht := hbase t ht
  simp only [Piece.Covers, segmentPiece] at ha ha'
  omega

/-- What is in the image before relocation. -/
theorem layAll_segmentPieces
    (hapart : ((moduleSegments upload).map (segmentPiece upload base)).Pairwise
      Piece.Apart) (hsg : sg ∈ moduleSegments upload) (hk : k < sg.vmsize) :
    Piece.layAll f ((moduleSegments upload).map (segmentPiece upload base))
        (sg.vmaddr - base + k) =
      if k < sg.filesize then upload (sg.fileoff + k) else 0 := by
  have hcovers : (segmentPiece upload base sg).Covers
      (sg.vmaddr - base + k) :=
    ⟨Nat.le_add_right _ _, Nat.add_lt_add_left hk _⟩
  rw [Piece.layAll_of_mem hapart (List.mem_map_of_mem hsg) hcovers]
  simp only [segmentPiece, Nat.add_sub_cancel_left]

/-- A byte of a table is in the segment, and the image has it from the file. -/
theorem LiesIn.byte
    (hapart : ((moduleSegments upload).map (segmentPiece upload base)).Pairwise
      Piece.Apart)
    (hsize : ∀ sg ∈ moduleSegments upload, sg.filesize ≤ sg.vmsize)
    (hsg : sg ∈ moduleSegments upload) (ht : LiesIn base t sg) (hk : k < t.2) :
    (∃ j < sg.vmsize, t.1 + k = sg.vmaddr - base + j) ∧
      Piece.layAll f ((moduleSegments upload).map (segmentPiece upload base))
        (t.1 + k) = upload (t.1 + k) := by
  obtain ⟨hsame, hlo, hhi⟩ := ht
  have hsize := hsize sg hsg
  obtain ⟨j, hj⟩ := Nat.exists_eq_add_of_le
    (show sg.vmaddr - base ≤ t.1 + k by omega)
  rw [hj, layAll_segmentPieces hapart hsg (by omega), if_pos (by omega), hsame]
  exact ⟨⟨j, by omega, rfl⟩, rfl⟩

theorem TableMapped.byte
    (hapart : ((moduleSegments upload).map (segmentPiece upload base)).Pairwise
      Piece.Apart)
    (hsize : ∀ sg ∈ moduleSegments upload, sg.filesize ≤ sg.vmsize)
    (ht : TableMapped upload base t) (hk : k < t.2) :
    Piece.layAll f ((moduleSegments upload).map (segmentPiece upload base))
      (t.1 + k) = upload (t.1 + k) := by
  rcases ht with hempty | ⟨sg, hsg, ht⟩
  · omega
  · obtain ⟨-, hbyte⟩ := ht.byte (f := f) hapart hsize hsg hk
    exact hbyte

/-- The tables are in the image as they are in the file. -/
theorem intact_layAll
    (hapart : ((moduleSegments upload).map (segmentPiece upload base)).Pairwise
      Piece.Apart)
    (hsize : ∀ sg ∈ moduleSegments upload, sg.filesize ≤ sg.vmsize)
    (htables : ∀ t ∈ moduleTables upload symtab dysymtab,
      TableMapped upload base t) :
    Intact upload (moduleTables upload symtab dysymtab) (Piece.layAll f
      ((moduleSegments upload).map (segmentPiece upload base))) :=
  fun t ht _ hk => (htables t ht).byte hapart hsize hk

namespace WellFormedModule

theorem base_le (h : WellFormedModule upload recvCount base symtab dysymtab names)
    (hsg : sg ∈ moduleSegments upload) : base ≤ sg.vmaddr :=
  h.base_least.2 ⟨sg, hsg, rfl⟩

theorem pieces_apart
    (h : WellFormedModule upload recvCount base symtab dysymtab names) :
    ((moduleSegments upload).map (segmentPiece upload base)).Pairwise
      Piece.Apart :=
  segmentPieces_apart (fun _ => h.base_le) h.segments_apart

theorem layAll_segment
    (h : WellFormedModule upload recvCount base symtab dysymtab names)
    (hsg : sg ∈ moduleSegments upload) (hk : k < sg.vmsize) :
    Piece.layAll f ((moduleSegments upload).map (segmentPiece upload base))
        (sg.vmaddr - base + k) =
      if k < sg.filesize then upload (sg.fileoff + k) else 0 :=
  layAll_segmentPieces h.pieces_apart hsg hk

theorem layAll_eq_plainImage
    (h : WellFormedModule upload recvCount base symtab dysymtab names)
    (hsg : sg ∈ moduleSegments upload) (hk : k < sg.vmsize) :
    Piece.layAll f ((moduleSegments upload).map (segmentPiece upload base))
        (sg.vmaddr - base + k) =
      plainImage upload base (sg.vmaddr - base + k) :=
  (h.layAll_segment hsg hk).trans (h.layAll_segment hsg hk).symm

end WellFormedModule

end File

/-! ## Relocated images -/

section Image

variable {upload image : ByteMemory} {vmaBase base dysymtab a : ℕ}
  {resolved : ℕ → ℕ}

/-- What a slot holds in the end. -/
def slotValue (vmaBase base : ℕ) (resolved : ℕ → ℕ) (image : ByteMemory)
    (r : Relocation) : ℕ :=
  if IsExternSlot r then resolved r.symbolnum
  else slide vmaBase base (image.u64 r.address)

def slotPieces (vmaBase base : ℕ) (resolved : ℕ → ℕ) (upload : ByteMemory)
    (dysymtab : ℕ) (image : ByteMemory) : List (Piece UInt8) :=
  (moduleSlots upload dysymtab).map fun r =>
    slotPiece r.address (slotValue vmaBase base resolved image r)

theorem not_isExternSlot {r : Relocation} (h : IsLocalSlot r) :
    ¬ IsExternSlot r :=
  fun h' => Bool.noConfusion (h.1.symm.trans h'.1)

/-- The pieces of the two loops, where the second finds the slots as they were
before the first. -/
theorem slotPieces_eq
    (hapart : (moduleSlots upload dysymtab).Pairwise
      fun r s => SlotsApart r.address s.address) :
    externPieces resolved (externTable upload dysymtab) ++
        localPieces vmaBase base
          (Piece.layAll image
            (externPieces resolved (externTable upload dysymtab)))
          (localTable upload dysymtab) =
      slotPieces vmaBase base resolved upload dysymtab image := by
  have hcross := (List.pairwise_append.mp hapart).2.2
  have hsame : localPieces vmaBase base
      (Piece.layAll image (externPieces resolved (externTable upload dysymtab)))
      (localTable upload dysymtab) =
        localPieces vmaBase base image (localTable upload dysymtab) := by
    refine localPieces_congr fun r hr hslot => u64_layAll fun p hp => ?_
    obtain ⟨q, hq, rfl⟩ := List.mem_map.mp hp
    exact not_covers_of_apart
      (hcross q hq r (List.mem_filter.mpr ⟨hr, by simpa using hslot⟩))
  rw [hsame, slotPieces, moduleSlots, List.map_append, externPieces, localPieces]
  refine congrArg₂ (· ++ ·) ?_ ?_
  · refine List.map_congr_left fun r hr => ?_
    have hslot : IsExternSlot r := by simpa using (List.mem_filter.mp hr).2
    rw [slotValue, if_pos hslot]
  · refine List.map_congr_left fun r hr => ?_
    have hslot : IsLocalSlot r := by simpa using (List.mem_filter.mp hr).2
    rw [slotValue, if_neg (not_isExternSlot hslot)]

/-- What is read from a slot in the end. -/
theorem u64_slotPieces
    (hapart : (moduleSlots upload dysymtab).Pairwise
      fun r s => SlotsApart r.address s.address)
    {r : Relocation} (hr : r ∈ moduleSlots upload dysymtab) :
    ByteMemory.u64 (Piece.layAll image
        (slotPieces vmaBase base resolved upload dysymtab image)) r.address =
      slotValue vmaBase base resolved image r % 2 ^ 64 := by
  refine u64_of_slotPiece fun k hk => ?_
  have hpieces : (slotPieces vmaBase base resolved upload dysymtab
      image).Pairwise Piece.Apart :=
    List.pairwise_map.mpr (hapart.imp fun h => slotPiece_apart h)
  exact Piece.layAll_of_mem hpieces (List.mem_map_of_mem hr)
    ⟨Nat.le_add_right _ _, Nat.add_lt_add_left hk _⟩

theorem layAll_slotPieces_of_not
    (h : ∀ r ∈ moduleSlots upload dysymtab,
      ¬ (r.address ≤ a ∧ a < r.address + 8)) :
    Piece.layAll image
      (slotPieces vmaBase base resolved upload dysymtab image) a = image a := by
  refine Piece.layAll_of_not_covers fun p hp => ?_
  obtain ⟨r, hr, rfl⟩ := List.mem_map.mp hp
  exact h r hr

end Image

/-! ## Where the image is -/

/-- The pages that map the image. -/
def modulePages (A : AddressSpace) (allocto vmaBase base : ℕ)
    (upload : ByteMemory) : List MappedPage :=
  (moduleSegments upload).flatMap fun sg =>
    segmentPages A allocto vmaBase base sg 0

/-- The segments do not share pages, and there is memory and room for them. -/
structure ImageFits (A : AddressSpace) (allocto vmaBase base : ℕ)
    (upload : ByteMemory) : Prop where
  base_le : ∀ sg ∈ moduleSegments upload, base ≤ sg.vmaddr
  aligned : ∀ sg ∈ moduleSegments upload, (sg.vmaddr - base) % pageSize = 0
  apart : (moduleSegments upload).Pairwise fun s t =>
    s.vmaddr + s.vmsize ≤ t.vmaddr ∨ t.vmaddr + t.vmsize ≤ s.vmaddr
  vmaBase_ge : linearKvmBase ≤ vmaBase
  vmaBase_aligned : vmaBase % pageSize = 0
  room : ∀ sg ∈ moduleSegments upload,
    vmaBase + (sg.vmaddr - base + sg.vmsize) + 0x3fff ≤ linearKvmEnd
  ram : ∀ sg ∈ moduleSegments upload, ∀ page < sg.vmsize,
    page % pageSize = 0 → IsRamPage A (allocto + (sg.vmaddr - base + page))

section Pages

variable {A : AddressSpace} {allocto vmaBase base page k : ℕ}
  {upload memory : ByteMemory} {sg : Segment} {rest : ℕ → Option UInt8}

/-- The place of an address in the allocation. -/
theorem sub64_shift {x v : ℕ} (hbv : base ≤ v) (hv : v < 2 ^ 64)
    (hx : x + (v - base) < 2 ^ 64) :
    sub64 ((x + v) % 2 ^ 64) base = x + (v - base) := by
  unfold sub64
  omega

namespace ImageFits

variable (h : ImageFits A allocto vmaBase base upload)

include h

theorem mappedPage_eq (hsg : sg ∈ moduleSegments upload)
    (hpage : page < sg.vmsize) (haligned : page % pageSize = 0) :
    mappedPage A allocto vmaBase base sg page =
      ⟨vmaBase + (sg.vmaddr - base + page), sg.vmaddr - base + page,
        vatophysForce A (allocto + (sg.vmaddr - base + page)),
        segmentProt sg.initprot + protKernOnly⟩ := by
  have hle := h.base_le sg hsg
  have hlt := (segment_lt hsg).1
  have hroom := h.room sg hsg
  have hram := (h.ram sg hsg page hpage haligned).contiguous.ttbr0
  unfold linearKvmEnd at hroom
  rw [mappedPage, pageOf, pageAddress, sub64_shift hle hlt (by omega),
    sub64_shift hle hlt (by omega), sub64_shift hle hlt (by omega),
    Nat.add_assoc, Nat.add_assoc, Nat.add_comm page]

theorem mappable (hsg : sg ∈ moduleSegments upload) :
    SegmentMappable A allocto vmaBase base sg := by
  have hroom := h.room sg hsg
  have hge := h.vmaBase_ge
  have hspace := (granule_space A.granule).1
  unfold linearKvmEnd at hroom
  unfold linearKvmBase at hge
  refine ⟨by unfold pageSize; omega, fun page hpage => ?_⟩
  obtain ⟨haligned, hlt⟩ := mem_pageStarts.mp hpage
  have hram := h.ram sg hsg page hlt haligned
  have hbase := h.vmaBase_aligned
  have hoff := h.aligned sg hsg
  constructor
  · rw [pageAddress, sub64_shift (h.base_le sg hsg) (segment_lt hsg).1
      (by have hle := hram.contiguous.ttbr0; omega), Nat.add_assoc,
      Nat.add_comm page]
    exact hram.contiguous
  · rw [h.mappedPage_eq hsg hlt haligned]
    refine MappedPage.isAligned ?_ ?_ hram.aligned hram.lt
    · simp only
      unfold pageSize at *
      omega
    · simp only
      unfold pageSize at *
      omega

theorem mappedPage_covers {va : ℕ} (hsg : sg ∈ moduleSegments upload)
    (hpage : page ∈ pageStarts 0 sg.vmsize) (hva : va < A.granule.space) :
    (mappedPage A allocto vmaBase base sg page).Covers A.granule va ↔
      vmaBase + (sg.vmaddr - base + page) ≤ va ∧
        va < vmaBase + (sg.vmaddr - base + page) + pageSize := by
  obtain ⟨haligned, hlt⟩ := mem_pageStarts.mp hpage
  have hspace := (granule_space A.granule).1
  have hroom := h.room sg hsg
  unfold linearKvmEnd at hroom
  rw [h.mappedPage_eq hsg hlt haligned]
  refine MappedPage.covers_iff ?_ hva
  simp only
  unfold pageSize
  omega

/-- Two segments have no page in common. -/
theorem eq_of_page {sg' : Segment} (hsg : sg ∈ moduleSegments upload)
    (hsg' : sg' ∈ moduleSegments upload) (hk : k < sg.vmsize)
    (hpage : page < sg'.vmsize) (haligned : page % pageSize = 0)
    (hlow : sg'.vmaddr - base + page ≤ sg.vmaddr - base + k)
    (hhigh : sg.vmaddr - base + k < sg'.vmaddr - base + page + pageSize) :
    sg' = sg := by
  by_contra hne
  have hle := h.base_le sg hsg
  have hle' := h.base_le sg' hsg'
  have hoff := h.aligned sg hsg
  have hoff' := h.aligned sg' hsg'
  have hsymm : Std.Symm fun s t : Segment => s.vmaddr + s.vmsize ≤ t.vmaddr ∨
      t.vmaddr + t.vmsize ≤ s.vmaddr := ⟨fun _ _ => Or.symm⟩
  have hapart := h.apart.forall hsg' hsg hne
  unfold pageSize at *
  omega

/-- A segment with the right to read is read through its pages. -/
theorem reads (hsg : sg ∈ moduleSegments upload) (hread : CanRead sg)
    (hk : k < sg.vmsize) :
    throughPages A.granule (modulePages A allocto vmaBase base upload) memory
        rest (vmaBase + (sg.vmaddr - base + k)) =
      some (memory (sg.vmaddr - base + k)) := by
  have hspace := (granule_space A.granule).1
  have hva : vmaBase + (sg.vmaddr - base + k) < A.granule.space := by
    have hroom := h.room sg hsg
    unfold linearKvmEnd at hroom
    omega
  -- the page of the segment
  have hfloor : k / pageSize * pageSize ∈ pageStarts 0 sg.vmsize := by
    refine mem_pageStarts.mpr ⟨Nat.mul_mod_left _ _, ?_⟩
    exact Nat.lt_of_le_of_lt (Nat.div_mul_le_self _ _) hk
  refine throughPages_apply (p := mappedPage A allocto vmaBase base sg
    (k / pageSize * pageSize)) (List.mem_flatMap.mpr
      ⟨sg, hsg, List.mem_map_of_mem hfloor⟩) ?_ fun q hq hqcovers => ?_
  · rw [h.mappedPage_covers hsg hfloor hva]
    unfold pageSize
    omega
  · obtain ⟨sg', hsg', hq⟩ := List.mem_flatMap.mp hq
    obtain ⟨page, hpage, rfl⟩ := List.mem_map.mp hq
    have hin := (h.mappedPage_covers hsg' hpage hva).mp hqcovers
    obtain ⟨haligned, hlt⟩ := mem_pageStarts.mp hpage
    obtain rfl := h.eq_of_page hsg hsg' hk hlt haligned (by omega) (by omega)
    have hpa := (h.ram sg' hsg page hlt haligned).pos
    have hroom := h.room sg' hsg
    unfold linearKvmEnd at hroom
    rw [h.mappedPage_eq hsg hlt haligned]
    refine ⟨⟨?_, ?_⟩, ?_⟩
    · simp only
      omega
    · unfold CanRead at hread
      simp only [segmentProt, protKernOnly]
      omega
    · rw [MappedPage.offset_eq (by simp only; omega) hin.1 hva]
      simp only
      congr 1
      omega

end ImageFits

end Pages

/-! ## Runs -/

section Run

variable {upload f : ByteMemory} {pages : List MappedPage}
  {recvCount vmaBase base symtab dysymtab fuel : ℕ} {names : ℕ → CString}
  {env : ModloadEnv} {T : ExportTable} {Ts : List ExportTable}

theorem WellFormedModule.intact
    (h : WellFormedModule upload recvCount base symtab dysymtab names) :
    Intact upload (moduleTables upload symtab dysymtab) (Piece.layAll f
      ((moduleSegments upload).map (segmentPiece upload base))) :=
  intact_layAll h.pieces_apart (fun sg hsg => (h.segment_file sg hsg).1)
    h.tables_mapped

/-- The names of symbols are found through the mapping. -/
theorem WellFormedModule.name_virtual (f : ByteMemory)
    (h : WellFormedModule upload recvCount base symtab dysymtab names)
    {virtual : ℕ → Option UInt8}
    (hreads : ∀ sg ∈ moduleSegments upload, CanRead sg → ∀ k < sg.vmsize,
      virtual (vmaBase + (sg.vmaddr - base + k)) = some (Piece.layAll f
        ((moduleSegments upload).map (segmentPiece upload base))
          (sg.vmaddr - base + k))) :
    ∀ i < nsyms upload symtab, ReadsString virtual
      (vmaBase + stroff upload symtab + (symbolAt upload symtab i).strx)
      (names i) := by
  intro i hi j hj
  obtain ⟨hname, hlength⟩ := h.name i hi
  obtain ⟨sg, hsg, hread, hlies⟩ := h.strings_mapped
  obtain ⟨⟨k, hk, heq⟩, hbyte⟩ := hlies.byte (f := f)
    (k := (symbolAt upload symtab i).strx + j) h.pieces_apart
    (fun sg hsg => (h.segment_file sg hsg).1) hsg (by simp only; omega)
  simp only at heq hbyte
  rw [Nat.add_assoc, Nat.add_assoc, heq, hreads sg hsg hread k hk, ← heq,
    hbyte, ← Nat.add_assoc, hname.string_byte hj]

/-- The address that a name resolves to. -/
def resolvedAddress (T : ExportTable) (Ts : List ExportTable)
    (names : ℕ → CString) (i : ℕ) : ℕ :=
  ((allEntries (T :: Ts)).lookup (names i).bytes).getD 0

theorem resolveSymbol_ok (hready : ModloadReady env base dysymtab names T Ts)
    (hfuel : walkLength (T :: Ts) ≤ fuel) (i : ℕ) :
    resolveSymbol fuel env.linker.api env.linker.exports (names i).bytes =
      .ok (resolvedAddress T Ts names i) := by
  obtain ⟨k, rfl⟩ := Nat.exists_eq_add_of_le hfuel
  rw [resolveSymbol, hready.api_eq]
  exact hready.linked.resolve k

theorem externResolves
    (hwf : WellFormedModule env.upload env.recvCount base symtab dysymtab names)
    (hready : ModloadReady env base dysymtab names T Ts)
    (hfuel : 2 ^ 32 + walkLength (T :: Ts) ≤ fuel) {r : Relocation}
    (hr : r ∈ externTable env.upload dysymtab) (hslot : IsExternSlot r) :
    ExternResolves fuel env.linker env.upload symtab names
      (resolvedAddress T Ts names) r := by
  have hlt := hwf.symbolnum_lt r hr hslot
  obtain ⟨hname, hlength⟩ := hwf.name _ hlt
  obtain ⟨v, hv, hne⟩ := hready.resolvable r hr hslot
  refine ⟨hlt, hname, ?_, resolveSymbol_ok hready (by omega) _, ?_⟩
  · have hsize : strsize env.upload symtab < 2 ^ 32 := ByteMemory.u32_lt
    omega
  · rw [resolvedAddress, hv]
    exact hne

theorem pointers_ok {virtual : ℕ → Option UInt8} {image : ByteMemory}
    (entrypoint : ℕ)
    (hwf : WellFormedModule upload recvCount base symtab dysymtab names)
    (hintact : Intact upload (moduleTables upload symtab dysymtab) image)
    (hnames : ∀ i < nsyms upload symtab, ReadsString virtual
      (vmaBase + stroff upload symtab + (symbolAt upload symtab i).strx)
      (names i)) :
    ∃ p, (List.range (nsyms upload symtab)).foldlM
        (fun p i => lookSymbol virtual vmaBase (stroff upload symtab) p
          (readNlist image (symoff upload symtab + 16 * i)))
        ⟨entrypoint, 0, 0⟩ = .ok p ∧
      PointersAt names
        (fun i => ((symbolAt upload symtab i).value + vmaBase) % 2 ^ 64)
        (nsyms upload symtab) p := by
  obtain ⟨p, hrun, hp, -⟩ := lookSymbols_ok (e := entrypoint)
    (fun i => readNlist image (symoff upload symtab + 16 * i))
    (fun i hi => by
      rw [hintact.readSymbol hi]
      exact hnames i hi) hwf.looked_unique
  exact ⟨p, hrun, hp.congr fun i hi => by rw [hintact.readSymbol hi]⟩

/-- The two loops relocate the slots. -/
theorem relocate_ok {image : ByteMemory} (vmaBase : ℕ) (hbase : base < 2 ^ 64)
    (hwf : WellFormedModule env.upload env.recvCount base symtab dysymtab names)
    (hready : ModloadReady env base dysymtab names T Ts)
    (hfuel : 2 ^ 32 + walkLength (T :: Ts) ≤ fuel)
    (hintact : Intact env.upload (moduleTables env.upload symtab dysymtab)
      image) :
    ∃ image', (∀ globals : ModloadGlobals, globals.linker = env.linker →
        (List.range (nextrel env.upload dysymtab)).foldlM
          (relocateExtern fuel globals env.upload symtab dysymtab) image =
            .ok image') ∧
      (List.range (nlocrel env.upload dysymtab)).foldl
        (relocateLocal env.upload vmaBase base dysymtab) image' =
          Piece.layAll image (slotPieces vmaBase base
            (resolvedAddress T Ts names) env.upload dysymtab image) := by
  have hexternOut : ∀ r ∈ externTable env.upload dysymtab, IsExternSlot r →
      OutsideTables (moduleTables env.upload symtab dysymtab) r.address :=
    fun r hr hslot =>
      hwf.slots_outside r (mem_moduleSlots.mpr (.inl ⟨hr, hslot⟩))
  have hlocalOut : ∀ r ∈ localTable env.upload dysymtab, IsLocalSlot r →
      OutsideTables (moduleTables env.upload symtab dysymtab) r.address :=
    fun r hr hslot =>
      hwf.slots_outside r (mem_moduleSlots.mpr (.inr ⟨hr, hslot⟩))
  refine ⟨Piece.layAll image (externPieces (resolvedAddress T Ts names)
    (externTable env.upload dysymtab)),
    fun globals hglobals => relocateExterns_ok hintact
    (fun i hi => List.mem_range.mp hi)
    (fun i hi hslot => hglobals ▸ externResolves hwf hready hfuel
      (List.mem_map_of_mem hi) hslot)
    (fun i hi hslot => hexternOut _ (List.mem_map_of_mem hi) hslot), ?_⟩
  rw [relocateLocals_eq hbase (hintact.layAll_externPieces hexternOut)
    (fun i hi => List.mem_range.mp hi)
    (fun i hi hslot => hlocalOut _ (List.mem_map_of_mem hi) hslot)
    (List.pairwise_append.mp hwf.slots_apart).2.1, ← Piece.layAll_append]
  exact congrArg _ (slotPieces_eq hwf.slots_apart)

/-- A well-formed upload has its place. -/
theorem imageFits
    (hwf : WellFormedModule env.upload env.recvCount base symtab dysymtab names)
    (hready : ModloadReady env base dysymtab names T Ts) :
    ∃ allocto,
      env.contig (allocationSize (moduleSize env.upload)) = .ok allocto ∧
      ImageFits env.toAddressSpace allocto env.cursor base env.upload := by
  obtain ⟨allocto, hcontig, hram⟩ := hready.alloc
  obtain ⟨⟨sg₀, hsg₀, hsize⟩, hle⟩ :=
    moduleSize_of_isLeast hwf.base_least hwf.segment_end
  have hroom₀ := hready.room sg₀ hsg₀
  have halloc : moduleSize env.upload ≤
      allocationSize (moduleSize env.upload) := by
    have hcursor := hready.cursor_ge
    refine le_allocationSize ?_
    unfold linearKvmEnd at hroom₀
    unfold linearKvmBase at hcursor
    omega
  have haligned : ∀ sg ∈ moduleSegments env.upload,
      (sg.vmaddr - base) % pageSize = 0 := by
    intro sg hsg
    obtain ⟨sg₁, hsg₁, rfl⟩ := hwf.base_least.1
    have hlow := hwf.segment_aligned sg₁ hsg₁
    have hhigh := hwf.segment_aligned sg hsg
    unfold pageSize at *
    omega
  refine ⟨allocto, hcontig, fun sg hsg => hwf.base_le hsg, haligned,
    hwf.segments_apart, hready.cursor_ge, hready.cursor_aligned, hready.room,
    fun sg hsg page hpage hpage' => ?_⟩
  have hle := hle sg hsg
  have haligned := haligned sg hsg
  exact hram _ (by omega) (by unfold pageSize at *; omega)

/-- What follows the loops over load commands, where these have left an image in
which the tables are as in the file, and the names can be read. -/
theorem linkModule_eq {image : ByteMemory} (segments : List ModuleSegment)
    (cursor vmszNeeded : ℕ) (hbase : base < 2 ^ 64)
    (hwf : WellFormedModule env.upload env.recvCount base symtab dysymtab names)
    (hready : ModloadReady env base dysymtab names T Ts)
    (hfuel : 2 ^ 32 + walkLength (T :: Ts) ≤ fuel)
    (hintact : Intact env.upload (moduleTables env.upload symtab dysymtab)
      image)
    (hnames : ∀ i < nsyms env.upload symtab,
      ReadsString (throughPages env.granule pages image env.rest)
        (vmaBase + stroff env.upload symtab +
          (symbolAt env.upload symtab i).strx) (names i)) :
    ∃ m, m.vmBase = vmaBase ∧ m.pages = pages ∧
      m.image = Piece.layAll image (slotPieces vmaBase base
        (resolvedAddress T Ts names) env.upload dysymtab image) ∧
      PointersAt names
        (fun i => ((symbolAt env.upload symtab i).value + vmaBase) % 2 ^ 64)
        (nsyms env.upload symtab) m.pointers ∧
      linkModule fuel env cursor vmaBase base vmszNeeded symtab dysymtab
          ⟨image, pages, segments⟩ =
        if m.pointers.entrypoint = 0 then
          .error (.stop (.panic "no entryp")) else .ok m := by
  obtain ⟨image', hexternal, hlocal⟩ :=
    relocate_ok vmaBase hbase hwf hready hfuel hintact
  obtain ⟨pointers, hlook, hpointers⟩ :=
    pointers_ok env.entrypoint hwf hintact hnames
  let globals : ModloadGlobals :=
    { env.toModloadGlobals with
      cursor := cursor
      modules := ⟨0, vmaBase, (vmaBase + vmszNeeded) % 2 ^ 64, segments⟩ ::
        env.modules
      mapped := env.mapped ++ pages }
  simp only [linkModule]
  rw [hlook, orStop_ok, except_ok_bind, hexternal globals rfl, except_ok_bind,
    hlocal]
  obtain ⟨k, rfl⟩ := Nat.exists_eq_add_of_le
    (show walkLength (T :: Ts) ≤ fuel by omega)
  rw [linkExports, hready.api_eq, hready.linked.link k, orStop_ok,
    except_ok_bind]
  generalize Piece.layAll image (slotPieces vmaBase base _ _ _ _) = relocated
  exact ⟨⟨vmaBase, pages, relocated, pointers, _⟩, rfl, rfl, rfl, hpointers,
    rfl⟩

/-- What the command does with a well-formed upload. -/
theorem modloadCmd_eq
    (hwf : WellFormedModule env.upload env.recvCount base symtab dysymtab names)
    (hready : ModloadReady env base dysymtab names T Ts)
    (hfuel : 2 ^ 32 + walkLength (T :: Ts) ≤ fuel) :
    ∃ m, m.vmBase = env.cursor ∧
      (∃ allocto, m.pages = modulePages env.toAddressSpace allocto env.cursor
          base env.upload ∧
        ImageFits env.toAddressSpace allocto env.cursor base env.upload) ∧
      m.image = Piece.layAll (Piece.layAll env.fresh
          ((moduleSegments env.upload).map (segmentPiece env.upload base)))
        (slotPieces env.cursor base (resolvedAddress T Ts names) env.upload
          dysymtab (Piece.layAll env.fresh
            ((moduleSegments env.upload).map
              (segmentPiece env.upload base)))) ∧
      PointersAt names
        (fun i =>
          ((symbolAt env.upload symtab i).value + env.cursor) % 2 ^ 64)
        (nsyms env.upload symtab) m.pointers ∧
      modloadCmd fuel env = if m.pointers.entrypoint = 0 then
        .error (.stop (.panic "no entryp")) else .ok m := by
  obtain ⟨allocto, hcontig, hfits⟩ := imageFits hwf hready
  obtain ⟨sg₀, hsg₀, hsize⟩ :=
    (moduleSize_of_isLeast hwf.base_least hwf.segment_end).1
  have hlow := (moduleRange_of_isLeast hwf.base_least hwf.segment_end).1
  have hloaded : IsLoaded env allocto symtab := by
    constructor
    case recvCount_ge => exact hwf.recvCount_ge
    case magic => exact hwf.magic
    case filetype => exact hwf.filetype
    case complete =>
      intro sg hsg
      exact Nat.le_trans (Nat.mod_le _ _) (hwf.segment_file sg hsg).2
    case alloc => exact hcontig
    case room =>
      have hcursor := hready.cursor_ge
      have hroom := hready.room sg₀ hsg₀
      rw [hsize]
      unfold linearKvmSize linearKvmEnd at *
      omega
    case mappable =>
      rw [hlow]
      exact fun sg hsg => hfits.mappable hsg
    case symtab_eq => exact hwf.symtab_last
  have himage : moduleLoaded env allocto =
      ⟨Piece.layAll env.fresh ((moduleSegments env.upload).map
          (segmentPiece env.upload base)),
        modulePages env.toAddressSpace allocto env.cursor base env.upload,
        (moduleSegments env.upload).map moduleSegment⟩ := by
    rw [moduleLoaded, hlow, ← layAll_segmentPieces_eq fun sg hsg =>
      ⟨hwf.base_le hsg, (segment_lt hsg).1, (hwf.segment_file sg hsg).1⟩]
    rfl
  obtain ⟨m, hvmBase, hpages, himage', hpointers, hlink⟩ := linkModule_eq
    ((moduleSegments env.upload).map moduleSegment)
    (env.cursor + linearKvmSize (moduleSize env.upload))
    (moduleSize env.upload)
    (Nat.lt_of_le_of_lt (hwf.base_le hsg₀) (segment_lt hsg₀).1) hwf hready hfuel
    (hwf.intact (f := env.fresh)) (hwf.name_virtual env.fresh
      fun sg hsg hread k hk => hfits.reads hsg hread hk)
  refine ⟨m, hvmBase, ⟨allocto, hpages, hfits⟩, himage', hpointers, ?_⟩
  rw [hloaded.modloadCmd_eq (by omega), linkLoaded, hlow, himage,
    hwf.dysymtab_last, ← hlink]
  rfl

end Run

end PongoOS
