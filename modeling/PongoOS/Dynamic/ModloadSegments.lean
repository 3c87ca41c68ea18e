import Mathlib.Order.Bounds.Basic
import PongoOS.Dynamic.Modload

/-!
# The segments of a module

The first loop of `modload_cmd` finds the lowest address of a segment and the
range of all segments.  The second one lays the segments out from that address
on and maps the allocation page by page, or does not come to its end.
-/

namespace PongoOS

open MachO

def segments64 (upload : ByteMemory) (lcs : List ℕ) : List Segment :=
  (lcs.filter fun lc => upload.u32 lc = lcSegment64).map
    (layout64.readSegment upload)

section Scan

variable {upload : ByteMemory} {lcs : List ℕ} {lc n : ℕ} {s : ModloadScan}

theorem segments64_cons_of_pos (h : upload.u32 lc = lcSegment64) :
    segments64 upload (lc :: lcs) =
      layout64.readSegment upload lc :: segments64 upload lcs := by
  simp [segments64, h]

theorem segments64_cons_of_neg (h : upload.u32 lc ≠ lcSegment64) :
    segments64 upload (lc :: lcs) = segments64 upload lcs := by
  simp [segments64, h]

/-- The addresses of a segment.  The end has 64 bits. -/
def segmentBounds (sg : Segment) : ℕ × ℕ :=
  (sg.vmaddr, (sg.vmaddr + sg.vmsize) % 2 ^ 64)

def ModloadScan.range (s : ModloadScan) : ℕ × ℕ := (s.baseVmaddr, s.vmszNeeded)

theorem scanCommand_of_segment (h : upload.u32 lc = lcSegment64) :
    (scanCommand upload s lc).range =
        widen s.range (segmentBounds (layout64.readSegment upload lc)) ∧
      ((scanCommand upload s lc).fileszExpected ≤ n ↔
        s.fileszExpected ≤ n ∧
          ((layout64.readSegment upload lc).fileoff +
            (layout64.readSegment upload lc).filesize) % 2 ^ 64 ≤ n) := by
  unfold scanCommand
  rw [if_pos h]
  generalize layout64.readSegment upload lc = sg
  refine ⟨rfl, ?_⟩
  simp only
  split <;> omega

theorem scanCommand_of_not_segment (h : upload.u32 lc ≠ lcSegment64) :
    (scanCommand upload s lc).range = s.range ∧
      (scanCommand upload s lc).fileszExpected = s.fileszExpected := by
  unfold scanCommand
  rw [if_neg h]
  split
  · exact ⟨rfl, rfl⟩
  · split <;> exact ⟨rfl, rfl⟩

/-- What the first loop finds out about the segments. -/
theorem scanCommands_segments :
    (lcs.foldl (scanCommand upload) s).range =
        extent s.range ((segments64 upload lcs).map segmentBounds) ∧
      ((lcs.foldl (scanCommand upload) s).fileszExpected ≤ n ↔
        s.fileszExpected ≤ n ∧ ∀ sg ∈ segments64 upload lcs,
          (sg.fileoff + sg.filesize) % 2 ^ 64 ≤ n) := by
  induction lcs generalizing s with
  | nil => exact ⟨rfl, ⟨fun h => ⟨h, nofun⟩, fun h => h.1⟩⟩
  | cons lc lcs ih =>
      rw [List.foldl_cons]
      obtain ⟨hrange, hfilesz⟩ := ih (s := scanCommand upload s lc)
      by_cases hsegment : upload.u32 lc = lcSegment64
      · obtain ⟨hrange₁, hfilesz₁⟩ :=
          scanCommand_of_segment (s := s) (n := n) hsegment
        rw [segments64_cons_of_pos hsegment, List.map_cons, extent_cons,
          List.forall_mem_cons, hrange, hfilesz, hrange₁, hfilesz₁, and_assoc]
        exact ⟨rfl, Iff.rfl⟩
      · obtain ⟨hrange₁, hfilesz₁⟩ :=
          scanCommand_of_not_segment (s := s) hsegment
        rw [segments64_cons_of_neg hsegment, hrange, hfilesz, hrange₁, hfilesz₁]
        exact ⟨rfl, Iff.rfl⟩

theorem scanCommands_symtab (upload : ByteMemory) (lcs : List ℕ)
    (s : ModloadScan) : (lcs.foldl (scanCommand upload) s).symtab =
    (lastWhere (fun lc => upload.u32 lc = lcSymtab) lcs).or s.symtab := by
  induction lcs using List.reverseRecOn with
  | nil => rfl
  | append_singleton lcs lc ih =>
      rw [List.foldl_append, List.foldl_cons, List.foldl_nil]
      by_cases hsymtab : upload.u32 lc = lcSymtab
      · rw [lastWhere_concat_of_pos (P := fun lc => upload.u32 lc = lcSymtab)
          hsymtab, scanCommand, hsymtab]
        rfl
      · rw [lastWhere_concat_of_neg (P := fun lc => upload.u32 lc = lcSymtab)
          hsymtab, ← ih, scanCommand]
        split
        · rfl
        · split <;> rfl

theorem scanCommands_dysymtab (upload : ByteMemory) (lcs : List ℕ)
    (s : ModloadScan) : (lcs.foldl (scanCommand upload) s).dysymtab =
    (lastWhere (fun lc => upload.u32 lc = lcDysymtab) lcs).getD s.dysymtab := by
  induction lcs using List.reverseRecOn with
  | nil => rfl
  | append_singleton lcs lc ih =>
      rw [List.foldl_append, List.foldl_cons, List.foldl_nil]
      by_cases hdysymtab : upload.u32 lc = lcDysymtab
      · rw [lastWhere_concat_of_pos (P := fun lc => upload.u32 lc = lcDysymtab)
          hdysymtab, scanCommand, hdysymtab]
        rfl
      · rw [lastWhere_concat_of_neg (P := fun lc => upload.u32 lc = lcDysymtab)
          hdysymtab, ← ih, scanCommand]
        split
        · rfl
        · split <;> rfl

end Scan

/-! ### The commands of an upload -/

/-- The load commands of an upload. -/
def moduleCommands (upload : ByteMemory) : List ℕ :=
  loadCommands upload (upload.u32 16) 32

def moduleSegments (upload : ByteMemory) : List Segment :=
  segments64 upload (moduleCommands upload)

/-- From the lowest address of a segment to the highest end. -/
def moduleRange (upload : ByteMemory) : ℕ × ℕ :=
  extent (2 ^ 64 - 1, 0) ((moduleSegments upload).map segmentBounds)

def moduleBase (upload : ByteMemory) : ℕ := (moduleRange upload).1

/-- The bytes that the segments take up. -/
def moduleSize (upload : ByteMemory) : ℕ :=
  sub64 (moduleRange upload).2 (moduleBase upload)

/-- The first loop. -/
def moduleScan (env : ModloadEnv) : ModloadScan :=
  (moduleCommands env.upload).foldl (scanCommand env.upload)
    ⟨0, 0, 2 ^ 64 - 1, none, env.dysymtab⟩

/-- The last command that describes the symbols. -/
def lastSymtab (upload : ByteMemory) : Option ℕ :=
  lastWhere (fun lc => upload.u32 lc = lcSymtab) (moduleCommands upload)

/-- The last command that describes the relocations. -/
def lastDysymtab (upload : ByteMemory) : Option ℕ :=
  lastWhere (fun lc => upload.u32 lc = lcDysymtab) (moduleCommands upload)

section Module

variable {upload : ByteMemory} {env : ModloadEnv} {sg : Segment} {base n : ℕ}

theorem moduleCommands_def (upload : ByteMemory) :
    loadCommands upload (upload.u32 16) 32 = moduleCommands upload := rfl

theorem moduleScan_def (env : ModloadEnv) :
    (moduleCommands env.upload).foldl (scanCommand env.upload)
        ⟨0, 0, 2 ^ 64 - 1, none, env.dysymtab⟩ = moduleScan env := rfl

theorem moduleScan_range (env : ModloadEnv) :
    (moduleScan env).range = moduleRange env.upload :=
  (scanCommands_segments (n := 0)).1

theorem moduleScan_base (env : ModloadEnv) :
    (moduleScan env).baseVmaddr = moduleBase env.upload :=
  congrArg Prod.fst (moduleScan_range env)

theorem moduleScan_size (env : ModloadEnv) :
    sub64 (moduleScan env).vmszNeeded (moduleBase env.upload) =
      moduleSize env.upload :=
  congrArg (fun r : ℕ × ℕ => sub64 r.2 (moduleBase env.upload))
    (moduleScan_range env)

/-- No segment's part of the file ends behind the first `n` bytes. -/
theorem moduleScan_filesz :
    (moduleScan env).fileszExpected ≤ n ↔ ∀ sg ∈ moduleSegments env.upload,
      (sg.fileoff + sg.filesize) % 2 ^ 64 ≤ n :=
  scanCommands_segments.2.trans (and_iff_right (Nat.zero_le n))

theorem moduleScan_symtab (env : ModloadEnv) :
    (moduleScan env).symtab = lastSymtab env.upload :=
  (scanCommands_symtab env.upload (moduleCommands env.upload) _).trans
    Option.or_none

theorem moduleScan_dysymtab (env : ModloadEnv) :
    (moduleScan env).dysymtab =
      (lastDysymtab env.upload).getD env.dysymtab :=
  scanCommands_dysymtab env.upload (moduleCommands env.upload) _

theorem segment_lt {lcs : List ℕ} (hsg : sg ∈ segments64 upload lcs) :
    sg.vmaddr < 2 ^ 64 ∧ sg.vmsize < 2 ^ 64 := by
  obtain ⟨lc, -, rfl⟩ := List.mem_map.mp hsg
  exact ⟨ByteMemory.littleEndian_bytesAt_lt,
    ByteMemory.littleEndian_bytesAt_lt⟩

/-- The range of segments that do not wrap around. -/
theorem moduleRange_of_isLeast
    (hbase : IsLeast {v | ∃ sg ∈ moduleSegments upload, sg.vmaddr = v} base)
    (hend : ∀ sg ∈ moduleSegments upload, sg.vmaddr + sg.vmsize < 2 ^ 64) :
    moduleBase upload = base ∧
      IsGreatest {v | ∃ sg ∈ moduleSegments upload, sg.vmaddr + sg.vmsize = v}
        (moduleRange upload).2 := by
  have hlow : moduleBase upload = 2 ^ 64 - 1 ∨
      ∃ i ∈ (moduleSegments upload).map segmentBounds,
        moduleBase upload = i.1 := extent_fst_mem
  have hhigh : (moduleRange upload).2 = 0 ∨
      ∃ i ∈ (moduleSegments upload).map segmentBounds,
        (moduleRange upload).2 = i.2 := extent_snd_mem
  have hin : ∀ sg ∈ moduleSegments upload,
      moduleBase upload ≤ sg.vmaddr ∧
        sg.vmaddr + sg.vmsize ≤ (moduleRange upload).2 := fun sg hsg => by
    have hle := extent_le_of_mem (r := (2 ^ 64 - 1, 0))
      (List.mem_map_of_mem (f := segmentBounds) hsg)
    simp only [segmentBounds, Nat.mod_eq_of_lt (hend sg hsg)] at hle
    exact hle
  obtain ⟨sg₀, hsg₀, hbase₀⟩ := hbase.1
  have hin₀ := hin sg₀ hsg₀
  have hend₀ := hend sg₀ hsg₀
  refine ⟨?_, ?_, ?_⟩
  · rcases hlow with heq | ⟨i, hi, heq⟩
    · omega
    · obtain ⟨sg, hsg, rfl⟩ := List.mem_map.mp hi
      have hle := hbase.2 ⟨sg, hsg, rfl⟩
      simp only [segmentBounds] at heq
      omega
  · rcases hhigh with heq | ⟨i, hi, heq⟩
    · exact ⟨sg₀, hsg₀, by omega⟩
    · obtain ⟨sg, hsg, rfl⟩ := List.mem_map.mp hi
      simp only [segmentBounds, Nat.mod_eq_of_lt (hend sg hsg)] at heq
      exact ⟨sg, hsg, heq.symm⟩
  · rintro v ⟨sg, hsg, rfl⟩
    exact (hin sg hsg).2

/-- The size that is asked for is that of the segments. -/
theorem moduleSize_of_isLeast
    (hbase : IsLeast {v | ∃ sg ∈ moduleSegments upload, sg.vmaddr = v} base)
    (hend : ∀ sg ∈ moduleSegments upload, sg.vmaddr + sg.vmsize < 2 ^ 64) :
    (∃ sg ∈ moduleSegments upload,
        moduleSize upload = sg.vmaddr - base + sg.vmsize) ∧
      ∀ sg ∈ moduleSegments upload,
        sg.vmaddr - base + sg.vmsize ≤ moduleSize upload := by
  obtain ⟨hlowest, ⟨sg₀, hsg₀, htop⟩, hgreatest⟩ :=
    moduleRange_of_isLeast hbase hend
  have hle₀ := hbase.2 ⟨sg₀, hsg₀, rfl⟩
  have hend₀ := hend sg₀ hsg₀
  have hsize : moduleSize upload = sg₀.vmaddr - base + sg₀.vmsize := by
    rw [moduleSize, hlowest, ← htop, sub64_of_le (by omega) hend₀]
    omega
  refine ⟨⟨sg₀, hsg₀, hsize⟩, fun sg hsg => ?_⟩
  have hle := hbase.2 ⟨sg, hsg, rfl⟩
  have hsg_le : sg.vmaddr + sg.vmsize ≤ (moduleRange upload).2 :=
    hgreatest ⟨sg, hsg, rfl⟩
  omega

theorem le_allocationSize (h : n + 0x3fff < 2 ^ 32) :
    n ≤ allocationSize n := by
  unfold allocationSize
  omega

end Module

/-! ## Mapping -/

/-- Where the pages of a segment start, from `page` on. -/
def pageStarts (page vmsize : ℕ) : List ℕ :=
  List.range' page ((vmsize - page + (pageSize - 1)) / pageSize) pageSize

section Pages

variable (A : AddressSpace) (allocto vmaBase base : ℕ) (sg : Segment)

def mappedPage (page : ℕ) : MappedPage :=
  pageOf vmaBase base sg page (vatophysForce A (pageAddress allocto base sg page))

def segmentPages (page : ℕ) : List MappedPage :=
  (pageStarts page sg.vmsize).map (mappedPage A allocto vmaBase base sg)

/-- The page can be translated and mapped. -/
structure PageMappable (page : ℕ) : Prop where
  contiguous : IsContiguous A (pageAddress allocto base sg page)
  aligned : (mappedPage A allocto vmaBase base sg page).IsAligned A.granule

/-- The counter comes to the end of the segment, and all the pages can be
mapped. -/
structure SegmentMappable : Prop where
  vmsize_le : sg.vmsize + pageSize ≤ 2 ^ 32
  page : ∀ page ∈ pageStarts 0 sg.vmsize,
    PageMappable A allocto vmaBase base sg page

end Pages

section Pages

variable {A : AddressSpace} {allocto vmaBase base fuel page k : ℕ} {sg : Segment}
  {pages pages' : List MappedPage} {p : MappedPage}

theorem pageStarts_of_le {vmsize : ℕ} (h : vmsize ≤ page) :
    pageStarts page vmsize = [] := by
  rw [pageStarts, Nat.sub_eq_zero_of_le h]
  rfl

theorem pageStarts_of_lt {vmsize : ℕ} (h : page < vmsize) :
    pageStarts page vmsize = page :: pageStarts (page + pageSize) vmsize := by
  have hcount : (vmsize - page + (pageSize - 1)) / pageSize =
      (vmsize - (page + pageSize) + (pageSize - 1)) / pageSize + 1 := by
    unfold pageSize
    omega
  rw [pageStarts, hcount, List.range'_succ]
  rfl

theorem mem_pageStarts {vmsize : ℕ} :
    page ∈ pageStarts 0 vmsize ↔ page % pageSize = 0 ∧ page < vmsize := by
  rw [pageStarts, List.mem_range']
  unfold pageSize
  constructor
  · rintro ⟨i, hi, rfl⟩
    omega
  · rintro ⟨haligned, hlt⟩
    exact ⟨page / 0x4000, by omega, by omega⟩

theorem mapPage_eq_ok :
    mapPage A allocto vmaBase base sg page = .ok p ↔
      PageMappable A allocto vmaBase base sg page ∧
        mappedPage A allocto vmaBase base sg page = p := by
  rw [mapPage, Outcome.bind_eq_ok]
  constructor
  · rintro ⟨pa, hpa, hp⟩
    obtain ⟨hcontiguous, rfl⟩ := vatophys_eq_ok.mp hpa
    obtain ⟨haligned, rfl⟩ := mapPagePhysicalProt_eq_ok.mp hp
    exact ⟨⟨hcontiguous, haligned⟩, rfl⟩
  · rintro ⟨⟨hcontiguous, haligned⟩, rfl⟩
    exact ⟨_, vatophys_eq_ok.mpr ⟨hcontiguous, rfl⟩,
      mapPagePhysicalProt_eq_ok.mpr ⟨haligned, rfl⟩⟩

/-- A counter that has 32 bits and comes to the end of the segment does not wrap
around. -/
theorem mapPages_of_ok (hpage : page % pageSize = 0) (hlt : page < 2 ^ 32)
    (hrun : mapPages A allocto vmaBase base sg fuel page pages = .ok pages') :
    sg.vmsize + pageSize ≤ 2 ^ 32 ∧
      (∀ i ∈ pageStarts page sg.vmsize,
        PageMappable A allocto vmaBase base sg i) ∧
      pages' = pages ++ segmentPages A allocto vmaBase base sg page := by
  unfold pageSize at hpage
  induction fuel generalizing page pages with
  | zero => cases hrun
  | succ fuel ih =>
      rw [mapPages] at hrun
      split at hrun
      · rename_i hdone
        cases hrun
        rw [segmentPages, pageStarts_of_le hdone]
        refine ⟨?_, nofun, (List.append_nil _).symm⟩
        unfold pageSize
        omega
      · rename_i hmore
        obtain ⟨p, hp, hrest⟩ := Outcome.bind_eq_ok.mp hrun
        obtain ⟨hmappable, rfl⟩ := mapPage_eq_ok.mp hp
        obtain ⟨hsize, hmappable', rfl⟩ := ih (by unfold pageSize; omega)
          (Nat.mod_lt _ (by decide)) hrest
        have hnext : (page + pageSize) % 2 ^ 32 = page + pageSize :=
          Nat.mod_eq_of_lt (by omega)
        rw [hnext] at hmappable'
        rw [hnext, segmentPages, segmentPages,
          pageStarts_of_lt (Nat.lt_of_not_le hmore)]
        refine ⟨hsize, List.forall_mem_cons.mpr ⟨hmappable, hmappable'⟩, ?_⟩
        rw [List.map_cons, List.append_assoc, List.singleton_append]

theorem mapPages_ok (hsize : sg.vmsize + pageSize ≤ 2 ^ 32)
    (hmappable : ∀ i ∈ pageStarts page sg.vmsize,
      PageMappable A allocto vmaBase base sg i)
    (hfuel : sg.vmsize ≤ page + fuel * pageSize) :
    mapPages A allocto vmaBase base sg (fuel + 1) page pages =
      .ok (pages ++ segmentPages A allocto vmaBase base sg page) := by
  induction fuel generalizing page pages with
  | zero =>
      have hdone : sg.vmsize ≤ page := by omega
      rw [mapPages, if_pos hdone, segmentPages, pageStarts_of_le hdone,
        List.map_nil, List.append_nil]
      rfl
  | succ fuel ih =>
      rw [mapPages, segmentPages]
      rcases Nat.lt_or_ge page sg.vmsize with hmore | hdone
      · rw [pageStarts_of_lt hmore] at hmappable ⊢
        obtain ⟨hfirst, hrest⟩ := List.forall_mem_cons.mp hmappable
        have hnext : (page + pageSize) % 2 ^ 32 = page + pageSize :=
          Nat.mod_eq_of_lt (by omega)
        have hfuel : sg.vmsize ≤ page + pageSize + fuel * pageSize := by
          rw [Nat.succ_mul] at hfuel
          omega
        rw [if_neg (Nat.not_le_of_lt hmore), mapPage_eq_ok.mpr ⟨hfirst, rfl⟩,
          Outcome.ok_bind, hnext, ih hrest hfuel, segmentPages, List.map_cons,
          List.append_assoc, List.singleton_append]
      · rw [if_pos hdone, pageStarts_of_le hdone, List.map_nil, List.append_nil]
        rfl

end Pages

/-! ## Laying out -/

/-- What a segment lays over the allocation: zeros, and its part of the file over
them. -/
def segmentPieces (upload : ByteMemory) (base : ℕ) (sg : Segment) :
    List (Piece UInt8) :=
  let off := sub64 sg.vmaddr base
  [⟨off, off + sg.vmsize, fun _ => 0⟩,
    ⟨off, off + sg.filesize, fun a => upload (sg.fileoff + (a - off))⟩]

def moduleSegment (sg : Segment) : ModuleSegment :=
  ⟨sg.vmaddr, sg.vmsize, segmentProt sg.initprot⟩

section Layout

variable (A : AddressSpace) (allocto vmaBase base : ℕ) (upload : ByteMemory)

/-- What the second loop makes of the segments. -/
def loadAll (segs : List Segment) (st : ModloadImage) : ModloadImage where
  image := Piece.layAll st.image (segs.flatMap (segmentPieces upload base))
  pages := st.pages ++
    segs.flatMap fun sg => segmentPages A allocto vmaBase base sg 0
  segments := st.segments ++ segs.map moduleSegment

end Layout

section Layout

variable {A : AddressSpace} {allocto vmaBase base fuel lc : ℕ}
  {upload : ByteMemory} {lcs : List ℕ} {st st' : ModloadImage}

theorem lay_segmentPieces {image : ByteMemory} {sg : Segment} :
    (zeroFill image (sub64 sg.vmaddr base) sg.vmsize).write
        (sub64 sg.vmaddr base) (upload.bytesAt sg.fileoff sg.filesize) =
      Piece.layAll image (segmentPieces upload base sg) := by
  funext a
  rw [ByteMemory.write_bytesAt_apply, segmentPieces, Piece.layAll_cons,
    Piece.layAll_cons, Piece.layAll_nil, Piece.lay_mk, Piece.lay_mk, zeroFill]

theorem loadSegment_of_ok
    (hrun : loadSegment A allocto vmaBase base fuel upload st lc = .ok st') :
    (∀ sg ∈ segments64 upload [lc],
        SegmentMappable A allocto vmaBase base sg) ∧
      st' = loadAll A allocto vmaBase base upload (segments64 upload [lc])
        st := by
  unfold loadSegment at hrun
  by_cases hsegment : upload.u32 lc = lcSegment64
  · rw [if_pos hsegment] at hrun
    rw [segments64_cons_of_pos hsegment]
    obtain ⟨pages, hpages, hst'⟩ := Outcome.bind_eq_ok.mp hrun
    obtain ⟨hsize, hmappable, rfl⟩ :=
      mapPages_of_ok rfl (Nat.two_pow_pos 32) hpages
    cases hst'
    refine ⟨List.forall_mem_singleton.mpr ⟨hsize, hmappable⟩, ?_⟩
    rw [lay_segmentPieces]
    simp [loadAll, segments64, moduleSegment]
  · rw [if_neg hsegment] at hrun
    rw [segments64_cons_of_neg hsegment]
    cases hrun
    refine ⟨nofun, ?_⟩
    simp [loadAll, segments64]

theorem loadSegment_ok (hfuel : 2 ^ 18 < fuel)
    (hmappable : ∀ sg ∈ segments64 upload [lc],
      SegmentMappable A allocto vmaBase base sg) :
    loadSegment A allocto vmaBase base fuel upload st lc =
      .ok (loadAll A allocto vmaBase base upload (segments64 upload [lc])
        st) := by
  unfold loadSegment
  by_cases hsegment : upload.u32 lc = lcSegment64
  · rw [segments64_cons_of_pos hsegment] at hmappable ⊢
    obtain ⟨hsize, hpages⟩ := hmappable _ List.mem_cons_self
    obtain ⟨n, rfl⟩ : ∃ n, fuel = n + 1 := ⟨fuel - 1, by omega⟩
    have hfuel : (layout64.readSegment upload lc).vmsize ≤
        0 + n * pageSize := by
      unfold pageSize at hsize ⊢
      omega
    rw [if_pos hsegment]
    simp only [mapPages_ok hsize hpages hfuel, lay_segmentPieces]
    simp [loadAll, segments64, moduleSegment]
  · rw [segments64_cons_of_neg hsegment, if_neg hsegment]
    simp [loadAll, segments64]

theorem segments64_cons (upload : ByteMemory) (lc : ℕ) (lcs : List ℕ) :
    segments64 upload (lc :: lcs) =
      segments64 upload [lc] ++ segments64 upload lcs := by
  by_cases hsegment : upload.u32 lc = lcSegment64
  · rw [segments64_cons_of_pos hsegment, segments64_cons_of_pos hsegment]
    rfl
  · rw [segments64_cons_of_neg hsegment, segments64_cons_of_neg hsegment]
    rfl

theorem loadAll_append (segs segs' : List Segment) (st : ModloadImage) :
    loadAll A allocto vmaBase base upload (segs ++ segs') st =
      loadAll A allocto vmaBase base upload segs'
        (loadAll A allocto vmaBase base upload segs st) := by
  simp [loadAll, Piece.layAll_append]

/-- The second loop, where it comes to its end. -/
theorem loadSegments_of_ok
    (hrun : lcs.foldlM (loadSegment A allocto vmaBase base fuel upload) st =
      .ok st') :
    (∀ sg ∈ segments64 upload lcs, SegmentMappable A allocto vmaBase base sg) ∧
      st' = loadAll A allocto vmaBase base upload (segments64 upload lcs)
        st := by
  induction lcs generalizing st with
  | nil =>
      cases hrun
      refine ⟨nofun, ?_⟩
      simp [loadAll, segments64]
  | cons lc lcs ih =>
      rw [List.foldlM_cons] at hrun
      obtain ⟨st₁, hfirst, hrest⟩ := Outcome.bind_eq_ok.mp hrun
      obtain ⟨hmappable, rfl⟩ := loadSegment_of_ok hfirst
      obtain ⟨hmappable', rfl⟩ := ih hrest
      rw [segments64_cons, loadAll_append]
      exact ⟨List.forall_mem_append.mpr ⟨hmappable, hmappable'⟩, rfl⟩

theorem loadSegments_ok (st : ModloadImage) (hfuel : 2 ^ 18 < fuel)
    (hmappable : ∀ sg ∈ segments64 upload lcs,
      SegmentMappable A allocto vmaBase base sg) :
    lcs.foldlM (loadSegment A allocto vmaBase base fuel upload) st =
      .ok (loadAll A allocto vmaBase base upload (segments64 upload lcs)
        st) := by
  induction lcs generalizing st with
  | nil => simp [loadAll, segments64]
  | cons lc lcs ih =>
      rw [segments64_cons] at hmappable ⊢
      obtain ⟨hfirst, hrest⟩ := List.forall_mem_append.mp hmappable
      rw [List.foldlM_cons, loadSegment_ok hfuel hfirst, Outcome.ok_bind,
        ih _ hrest, loadAll_append]

end Layout

/-! ## Up to linking -/

/-- What the segments of an upload are laid out to. -/
def moduleLoaded (env : ModloadEnv) (allocto : ℕ) : ModloadImage :=
  loadAll env.toAddressSpace allocto env.cursor (moduleBase env.upload)
    env.upload (moduleSegments env.upload) ⟨env.fresh, [], []⟩

/-- The header and the sizes are accepted, there are memory and addresses for the
segments, and all their pages can be mapped. -/
structure IsLoaded (env : ModloadEnv) (allocto symtab : ℕ) : Prop where
  recvCount_ge : 0x4000 ≤ env.recvCount
  magic : env.upload.u32 0 = magic64
  filetype : env.upload.u32 12 = mhKextBundle
  complete : ∀ sg ∈ moduleSegments env.upload,
    (sg.fileoff + sg.filesize) % 2 ^ 64 ≤ env.recvCount
  alloc : env.contig (allocationSize (moduleSize env.upload)) = .ok allocto
  room : env.cursor + linearKvmSize (moduleSize env.upload) ≤ linearKvmEnd
  mappable : ∀ sg ∈ moduleSegments env.upload,
    SegmentMappable env.toAddressSpace allocto env.cursor
      (moduleBase env.upload) sg
  symtab_eq : lastSymtab env.upload = some symtab

/-- The command from the relocations on. -/
def linkLoaded (fuel : ℕ) (env : ModloadEnv) (allocto symtab : ℕ) :
    Except ModloadEnd LoadedModule :=
  linkModule fuel env (env.cursor + linearKvmSize (moduleSize env.upload))
    env.cursor (moduleBase env.upload) (moduleSize env.upload) symtab
    ((lastDysymtab env.upload).getD env.dysymtab) (moduleLoaded env allocto)

section Command

variable {env : ModloadEnv} {allocto symtab fuel : ℕ} {after : ModloadGlobals}
  {line : String}

theorem IsLoaded.modloadCmd_eq (h : IsLoaded env allocto symtab)
    (hfuel : 2 ^ 18 < fuel) :
    modloadCmd fuel env = linkLoaded fuel env allocto symtab := by
  have hcursor : linearKvmAlloc env.cursor (moduleSize env.upload) =
      .ok (env.cursor, env.cursor + linearKvmSize (moduleSize env.upload)) :=
    linearKvmAlloc_eq_ok.mpr ⟨h.room, rfl⟩
  have hload := loadSegments_ok ⟨env.fresh, [], []⟩ hfuel h.mappable
  simp only [modloadCmd, moduleScan_def, moduleCommands_def, moduleScan_size,
    moduleScan_base, moduleScan_symtab, moduleScan_dysymtab]
  rw [if_neg (Nat.not_lt.mpr h.recvCount_ge), if_neg (not_not.mpr h.magic),
    if_neg (not_not.mpr h.filetype),
    if_neg (Nat.not_lt.mpr (moduleScan_filesz.mpr h.complete)), h.alloc,
    orStop_ok, except_ok_bind, hcursor, orStop_ok, except_ok_bind]
  simp only
  rw [hload, orStop_ok, except_ok_bind, h.symtab_eq]
  rfl

end Command

end PongoOS
