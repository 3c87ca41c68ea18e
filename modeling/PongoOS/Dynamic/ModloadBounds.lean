import PongoOS.Dynamic.ModloadFailure

/-!
# What `modload_cmd` touches

The allocation is as large as the segments need, and an upload that is shorter
than a segment's part of the file is not loaded.  No other offset of the upload
is looked at before it is used: where a load command, a name or a slot lies is
left to the upload.
-/

namespace PongoOS

open MachO

/-! ## Accesses -/

/-- The allocation is written, or the upload is read. -/
inductive Access where
  | store (off len : ℕ)
  | read (off len : ℕ)
  /-- a string is read up to its end -/
  | readString (off : ℕ)
deriving DecidableEq, Repr

/-- The access is to the first `size` bytes of the allocation, or to bytes of the
upload that were received. -/
def Access.InBounds (upload : ByteMemory) (size recvCount : ℕ) : Access → Prop
  | .store off len => len = 0 ∨ off + len ≤ size
  | .read off len => len = 0 ∨ off + len ≤ recvCount
  | .readString off => ∃ n, off + n < recvCount ∧ upload (off + n) = 0

/-- The first loop over the load commands. -/
def scanAccesses (upload : ByteMemory) (lc : ℕ) : List Access :=
  .read lc 8 ::
    if upload.u32 lc = lcSegment64 then [.read (lc + 24) 32] else []

/-- The second loop over the load commands. -/
def segmentAccesses (upload : ByteMemory) (baseVmaddr lc : ℕ) : List Access :=
  .read lc 8 ::
    if upload.u32 lc = lcSegment64 then
      let sg := layout64.readSegment upload lc
      let off := sub64 sg.vmaddr baseVmaddr
      [.readString (lc + 8), .read (lc + 24) 32, .store off sg.vmsize,
        .store off sg.filesize, .read sg.fileoff sg.filesize,
        .read (lc + 60) 4]
    else []

section Relocate

variable (fuel : ℕ) (globals : ModloadGlobals) (upload : ByteMemory)
  (vmaBase baseVmaddr symtab dysymtab : ℕ)

/-- The loop over external relocations. -/
def externAccesses (image : ByteMemory) (i : ℕ) : List Access :=
  let ri := readRelocation image (extreloff upload dysymtab + 8 * i)
  if ri.isExtern = false ∨ ri.length ≠ 3 then []
  else
    .readString (externName upload symtab dysymtab image i) ::
      afterOk (relocateExtern fuel globals upload symtab dysymtab image i)
        fun _ => [.store ri.address 8]

/-- The loop over local relocations. -/
def localAccesses (image : ByteMemory) (i : ℕ) : List Access :=
  let ri := readRelocation image (locreloff upload dysymtab + 8 * i)
  if ri.isExtern = true ∨ ri.length ≠ 3 then [] else [.store ri.address 8]

/-- The two loops over relocations. -/
def relocateAccesses (image : ByteMemory) : List Access :=
  let externs := List.range (nextrel upload dysymtab)
  let relocate := relocateExtern fuel globals upload symtab dysymtab
  foldTrace (externAccesses fuel globals upload symtab dysymtab) relocate image
      externs ++
    afterOk (externs.foldlM relocate image) fun image =>
      foldTrace (localAccesses upload dysymtab)
        (fun image i => (.ok
          (relocateLocal upload vmaBase baseVmaddr dysymtab image i) :
            Outcome ByteMemory))
        image (List.range (nlocrel upload dysymtab))

end Relocate

/-- The globals when the module is linked: it is on the list and mapped. -/
def linkGlobals (env : ModloadEnv) (cursor vmaBase vmszNeeded : ℕ)
    (loaded : ModloadImage) : ModloadGlobals where
  recvCount := env.recvCount
  cursor := cursor
  linker := env.linker
  modules := ⟨0, vmaBase, (vmaBase + vmszNeeded) % 2 ^ 64, loaded.segments⟩ ::
    env.modules
  mapped := env.mapped ++ loaded.pages

/-- The loop over symbols. -/
def lookSymbols (env : ModloadEnv) (vmaBase symtab : ℕ)
    (loaded : ModloadImage) : Outcome ModulePointers :=
  (List.range (nsyms env.upload symtab)).foldlM
    (fun p i => lookSymbol
      (throughPages env.granule loaded.pages loaded.image env.rest) vmaBase
      (stroff env.upload symtab) p
      (readNlist loaded.image (symoff env.upload symtab + 16 * i)))
    ⟨env.entrypoint, 0, 0⟩

/-- What follows the check for a truncated load. -/
def loadAccesses (fuel : ℕ) (env : ModloadEnv) (scan : ModloadScan) :
    List Access :=
  let upload := env.upload
  let vmszNeeded := sub64 scan.vmszNeeded scan.baseVmaddr
  afterOk (env.contig (allocationSize vmszNeeded)) fun allocto =>
  afterOk (linearKvmAlloc env.cursor vmszNeeded) fun (vmaBase, cursor) =>
    let load := loadSegment env.toAddressSpace allocto vmaBase scan.baseVmaddr
      fuel upload
    foldTrace (fun _ => segmentAccesses upload scan.baseVmaddr) load
        ⟨env.fresh, [], []⟩ (moduleCommands upload) ++
      afterOk ((moduleCommands upload).foldlM load ⟨env.fresh, [], []⟩)
        fun loaded =>
          .read (scan.dysymtab + 64) 16 ::
            match scan.symtab with
            | none => []
            | some symtab =>
                .read (symtab + 8) 12 ::
                  afterOk (lookSymbols env vmaBase symtab loaded) fun _ =>
                    relocateAccesses fuel
                      (linkGlobals env cursor vmaBase vmszNeeded loaded) upload
                      vmaBase scan.baseVmaddr symtab scan.dysymtab loaded.image

/-- What `modload_cmd` writes of the allocation and reads of the upload. -/
def modloadAccesses (fuel : ℕ) (env : ModloadEnv) : List Access :=
  if env.recvCount < 0x4000 then []
  else
    .read 0 32 ::
      if env.upload.u32 0 ≠ magic64 ∨ env.upload.u32 12 ≠ mhKextBundle then []
      else
        (moduleCommands env.upload).flatMap (scanAccesses env.upload) ++
          let scan := moduleScan env
          if env.recvCount < scan.fileszExpected then []
          else loadAccesses fuel env scan

/-- The bytes of the allocation. -/
def moduleAllocation (env : ModloadEnv) : ℕ :=
  allocationSize
    (sub64 (moduleScan env).vmszNeeded (moduleScan env).baseVmaddr)

/-! ## Uploads that can be trusted -/

/-- The bytes of a load command, as far as it is read. -/
def commandLength (upload : ByteMemory) (lc : ℕ) : ℕ :=
  if upload.u32 lc = lcSegment64 then 72
  else if upload.u32 lc = lcSymtab then 24
  else if upload.u32 lc = lcDysymtab then 80
  else 8

/-- The load commands were received, no segment wraps around, the tables are
mapped where they are in the file, names end, and slots lie in segments. -/
structure TrustedModule (upload : ByteMemory)
    (recvCount base symtab dysymtab : ℕ) : Prop where
  commands_end : commandsEnd upload (upload.u32 16) 32 ≤ recvCount
  command_size : ∀ lc ∈ moduleCommands upload,
    commandLength upload lc ≤ cmdSize upload lc
  segment_name : ∀ lc ∈ moduleCommands upload, upload.u32 lc = lcSegment64 →
    ∃ n < 16, upload (lc + 8 + n) = 0
  base_least : IsLeast {v | ∃ sg ∈ moduleSegments upload, sg.vmaddr = v} base
  segment_end : ∀ sg ∈ moduleSegments upload, sg.vmaddr + sg.vmsize < 2 ^ 64
  segment_file : ∀ sg ∈ moduleSegments upload,
    sg.filesize ≤ sg.vmsize ∧ sg.fileoff + sg.filesize < 2 ^ 64
  segment_top : ∀ sg ∈ moduleSegments upload,
    sg.vmaddr - base + sg.vmsize + 0x3fff < 2 ^ 32
  segments_apart : (moduleSegments upload).Pairwise fun s t =>
    s.vmaddr + s.vmsize ≤ t.vmaddr ∨ t.vmaddr + t.vmsize ≤ s.vmaddr
  symtab_last : lastSymtab upload = some symtab
  dysymtab_last : lastDysymtab upload = some dysymtab
  tables_mapped : ∀ t ∈ moduleTables upload symtab dysymtab,
    TableMapped upload base t
  strings_end : stroff upload symtab + strsize upload symtab ≤ recvCount
  string_end : ∀ i < nsyms upload symtab,
    ∃ n, (symbolAt upload symtab i).strx + n < strsize upload symtab ∧
      upload (stroff upload symtab + (symbolAt upload symtab i).strx + n) = 0
  symbolnum_lt : ∀ r ∈ externTable upload dysymtab, IsExternSlot r →
    r.symbolnum < nsyms upload symtab
  slot_mapped : ∀ r ∈ moduleSlots upload dysymtab,
    ∃ sg ∈ moduleSegments upload, sg.vmaddr - base ≤ r.address ∧
      r.address + 8 ≤ sg.vmaddr - base + sg.vmsize
  slots_outside : ∀ r ∈ moduleSlots upload dysymtab,
    OutsideTables (moduleTables upload symtab dysymtab) r.address

/-! ## The loops over load commands -/

section Commands

variable {upload : ByteMemory} {recvCount base symtab dysymtab size vmaBase
  fuel lc : ℕ} {sg : Segment} {lcs : List ℕ} {s s' : ModloadImage}

theorem readSegment_mem (hlc : lc ∈ lcs) (h : upload.u32 lc = lcSegment64) :
    layout64.readSegment upload lc ∈ segments64 upload lcs :=
  List.mem_map_of_mem (List.mem_filter.mpr ⟨hlc, by simpa using h⟩)

theorem le_commandLength (upload : ByteMemory) (lc : ℕ) :
    8 ≤ commandLength upload lc := by
  unfold commandLength
  split
  · omega
  · split
    · omega
    · split <;> omega

theorem commandLength_of_segment (h : upload.u32 lc = lcSegment64) :
    commandLength upload lc = 72 := if_pos h

namespace TrustedModule

variable (h : TrustedModule upload recvCount base symtab dysymtab)

include h

theorem base_le (hsg : sg ∈ moduleSegments upload) : base ≤ sg.vmaddr :=
  h.base_least.2 ⟨sg, hsg, rfl⟩

theorem command_within (hlc : lc ∈ moduleCommands upload) :
    lc + commandLength upload lc ≤ recvCount := by
  have hlength := h.command_size lc hlc
  have hend : lc + cmdSize upload lc ≤ _ := command_end_le hlc
  have hcommands := h.commands_end
  omega

theorem scanAccesses_inBounds (hlc : lc ∈ moduleCommands upload) :
    ∀ a ∈ scanAccesses upload lc, a.InBounds upload size recvCount := by
  have hwithin := h.command_within hlc
  have hlength := le_commandLength upload lc
  intro a ha
  rcases List.mem_cons.mp ha with rfl | ha
  · exact .inr (by omega)
  · split at ha
    · rename_i hsegment
      rw [commandLength_of_segment hsegment] at hwithin
      rw [List.mem_singleton.mp ha]
      exact .inr (by omega)
    · exact absurd ha List.not_mem_nil

/-- A segment is laid out in the allocation, and its part of the file was
received. -/
theorem segmentAccesses_inBounds (hlc : lc ∈ moduleCommands upload)
    (htop : ∀ sg ∈ moduleSegments upload, sg.vmaddr - base + sg.vmsize ≤ size)
    (hfile : ∀ sg ∈ moduleSegments upload,
      sg.fileoff + sg.filesize ≤ recvCount) :
    ∀ a ∈ segmentAccesses upload base lc,
      a.InBounds upload size recvCount := by
  have hwithin := h.command_within hlc
  have hlength := le_commandLength upload lc
  intro a ha
  rcases List.mem_cons.mp ha with rfl | ha
  · exact .inr (by omega)
  split at ha
  · rename_i hsegment
    rw [commandLength_of_segment hsegment] at hwithin
    obtain ⟨n, hn, hzero⟩ := h.segment_name lc hlc hsegment
    have hsg : _ ∈ moduleSegments upload := readSegment_mem hlc hsegment
    generalize layout64.readSegment upload lc = sg at ha hsg
    have hle := h.base_le hsg
    have hend := h.segment_end sg hsg
    have hsize := (h.segment_file sg hsg).1
    have htop := htop sg hsg
    simp only [sub64_of_le hle (by omega), List.mem_cons, List.not_mem_nil,
      or_false] at ha
    rcases ha with rfl | rfl | rfl | rfl | rfl | rfl
    · exact ⟨n, by omega, hzero⟩
    · exact .inr (by omega)
    · exact .inr htop
    · exact .inr (by omega)
    · exact .inr (hfile sg hsg)
    · exact .inr (by omega)
  · exact absurd ha List.not_mem_nil

end TrustedModule

end Commands

/-! ## The loops over relocations -/

section Relocations

variable {upload image image' : ByteMemory} {recvCount base symtab dysymtab
  size vmaBase fuel i : ℕ} {globals : ModloadGlobals}

namespace TrustedModule

variable (h : TrustedModule upload recvCount base symtab dysymtab)
  (hintact : Intact upload (moduleTables upload symtab dysymtab) image)

include h

/-- Names of symbols end before the last byte received. -/
theorem string_within (hi : i < nsyms upload symtab) :
    (Access.readString (stroff upload symtab +
      (symbolAt upload symtab i).strx)).InBounds upload size recvCount := by
  obtain ⟨n, hn, hzero⟩ := h.string_end i hi
  have hstrings := h.strings_end
  exact ⟨n, by omega, hzero⟩

theorem slot_within
    (htop : ∀ sg ∈ moduleSegments upload, sg.vmaddr - base + sg.vmsize ≤ size)
    {r : Relocation} (hr : r ∈ moduleSlots upload dysymtab) :
    (Access.store r.address 8).InBounds upload size recvCount := by
  obtain ⟨sg, hsg, -, hend⟩ := h.slot_mapped r hr
  exact .inr (Nat.le_trans hend (htop sg hsg))

include hintact

theorem externAccesses_inBounds (hi : i < nextrel upload dysymtab)
    (htop : ∀ sg ∈ moduleSegments upload,
      sg.vmaddr - base + sg.vmsize ≤ size) :
    ∀ a ∈ externAccesses fuel globals upload symtab dysymtab image i,
      a.InBounds upload size recvCount := by
  intro a ha
  simp only [externAccesses, externName, externEntry, hintact.readExtern hi]
    at ha
  have hmem : externAt upload dysymtab i ∈ externTable upload dysymtab :=
    List.mem_map_of_mem (List.mem_range.mpr hi)
  generalize externAt upload dysymtab i = r at ha hmem
  split at ha
  · exact absurd ha List.not_mem_nil
  · rename_i hnot
    have hslot : IsExternSlot r := by
      rw [not_or, Bool.not_eq_false, not_not] at hnot
      exact hnot
    have hlt := h.symbolnum_lt r hmem hslot
    rw [hintact.readSymbol hlt] at ha
    rcases List.mem_cons.mp ha with rfl | ha
    · exact h.string_within hlt
    · obtain ⟨_, -, ha⟩ := mem_afterOk.mp ha
      rw [List.mem_singleton.mp ha]
      exact h.slot_within htop (mem_moduleSlots.mpr (.inl ⟨hmem, hslot⟩))

/-- A slot that is written leaves the tables as they are. -/
theorem intact_relocateExtern (hi : i < nextrel upload dysymtab)
    (hok : relocateExtern fuel globals upload symtab dysymtab image i =
      .ok image') :
    Intact upload (moduleTables upload symtab dysymtab) image' := by
  have hmem : externAt upload dysymtab i ∈ externTable upload dysymtab :=
    List.mem_map_of_mem (List.mem_range.mpr hi)
  have hread : externEntry upload dysymtab image i =
      externAt upload dysymtab i := hintact.readExtern hi
  by_cases hslot : IsExternSlot (externAt upload dysymtab i)
  · rw [relocateExtern_of_slot (hread ▸ hslot)] at hok
    obtain ⟨len, -, hok⟩ := except_bind_eq_ok.mp hok
    obtain ⟨value, -, hok⟩ := except_bind_eq_ok.mp hok
    split at hok
    · cases hok
    · rw [← Except.ok.inj hok, hread, write_eq_lay]
      exact hintact.lay_slotPiece
        (h.slots_outside _ (mem_moduleSlots.mpr (.inl ⟨hmem, hslot⟩)))
  · rw [relocateExtern_of_not_slot (hread ▸ hslot)] at hok
    cases hok
    exact hintact

theorem localAccesses_inBounds (hi : i < nlocrel upload dysymtab)
    (htop : ∀ sg ∈ moduleSegments upload,
      sg.vmaddr - base + sg.vmsize ≤ size) :
    ∀ a ∈ localAccesses upload dysymtab image i,
      a.InBounds upload size recvCount := by
  intro a ha
  simp only [localAccesses, hintact.readLocal hi] at ha
  have hmem : localAt upload dysymtab i ∈ localTable upload dysymtab :=
    List.mem_map_of_mem (List.mem_range.mpr hi)
  generalize localAt upload dysymtab i = r at ha hmem
  split at ha
  · exact absurd ha List.not_mem_nil
  · rename_i hnot
    have hslot : IsLocalSlot r := by
      rw [not_or, Bool.not_eq_true, not_not] at hnot
      exact hnot
    rw [List.mem_singleton.mp ha]
    exact h.slot_within htop (mem_moduleSlots.mpr (.inr ⟨hmem, hslot⟩))

theorem intact_relocateLocal (hi : i < nlocrel upload dysymtab) :
    Intact upload (moduleTables upload symtab dysymtab)
      (relocateLocal upload vmaBase base dysymtab image i) := by
  have hmem : localAt upload dysymtab i ∈ localTable upload dysymtab :=
    List.mem_map_of_mem (List.mem_range.mpr hi)
  simp only [relocateLocal, hintact.readLocal hi]
  generalize localAt upload dysymtab i = r at hmem
  split
  · exact hintact
  · rename_i hnot
    have hslot : IsLocalSlot r := by
      rw [not_or, Bool.not_eq_true, not_not] at hnot
      exact hnot
    rw [write_eq_lay]
    exact hintact.lay_slotPiece
      (h.slots_outside _ (mem_moduleSlots.mpr (.inr ⟨hmem, hslot⟩)))

theorem relocateAccesses_inBounds
    (htop : ∀ sg ∈ moduleSegments upload,
      sg.vmaddr - base + sg.vmsize ≤ size) :
    ∀ a ∈ relocateAccesses fuel globals upload vmaBase base symtab dysymtab
      image, a.InBounds upload size recvCount := by
  intro a ha
  simp only [relocateAccesses] at ha
  rcases List.mem_append.mp ha with hextern | hlocal
  · refine forall_mem_foldTrace
      (I := Intact upload (moduleTables upload symtab dysymtab))
      (fun i hi image hintact => ?_) (fun i hi image image' hintact hok => ?_)
      hintact a hextern
    · exact h.externAccesses_inBounds hintact (List.mem_range.mp hi) htop
    · exact h.intact_relocateExtern hintact (List.mem_range.mp hi) hok
  · obtain ⟨image', hok, hlocal⟩ := mem_afterOk.mp hlocal
    have hintact' := foldlM_keeps
      (fun i hi image image' hintact => h.intact_relocateExtern hintact
        (List.mem_range.mp hi)) hintact hok
    refine forall_mem_foldTrace
      (I := Intact upload (moduleTables upload symtab dysymtab))
      (fun i hi image hintact => ?_) (fun i hi image image'' hintact hok => ?_)
      hintact' a hlocal
    · exact h.localAccesses_inBounds hintact (List.mem_range.mp hi) htop
    · cases hok
      exact h.intact_relocateLocal hintact (List.mem_range.mp hi)

end TrustedModule

end Relocations

/-! ## The command -/

section Command

variable {base symtab dysymtab : ℕ} {env : ModloadEnv} {a : Access}

theorem moduleAllocation_eq (env : ModloadEnv) :
    moduleAllocation env = allocationSize (moduleSize env.upload) := by
  rw [moduleAllocation, moduleScan_base, moduleScan_size]

/-- The segments lie in the allocation. -/
theorem TrustedModule.segment_within
    (h : TrustedModule env.upload env.recvCount base symtab dysymtab) :
    ∀ sg ∈ moduleSegments env.upload,
      sg.vmaddr - base + sg.vmsize ≤ moduleAllocation env := by
  obtain ⟨⟨sg₀, hsg₀, hsize⟩, hle⟩ :=
    moduleSize_of_isLeast h.base_least h.segment_end
  have htop := h.segment_top sg₀ hsg₀
  rw [← hsize] at htop
  intro sg hsg
  rw [moduleAllocation_eq]
  exact Nat.le_trans (hle sg hsg) (le_allocationSize htop)

theorem TrustedModule.loadAccesses_inBounds
    (h : TrustedModule env.upload env.recvCount base symtab dysymtab)
    (hfile : ∀ sg ∈ moduleSegments env.upload,
      sg.fileoff + sg.filesize ≤ env.recvCount) (fuel : ℕ)
    (ha : a ∈ loadAccesses fuel env (moduleScan env)) :
    a.InBounds env.upload (moduleAllocation env) env.recvCount := by
  have hlow := (moduleRange_of_isLeast h.base_least h.segment_end).1
  simp only [loadAccesses, moduleScan_base, hlow, moduleScan_symtab,
    h.symtab_last, moduleScan_dysymtab, h.dysymtab_last, Option.getD_some] at ha
  obtain ⟨allocto, -, ha⟩ := mem_afterOk.mp ha
  obtain ⟨⟨vmaBase, cursor⟩, -, ha⟩ := mem_afterOk.mp ha
  rcases List.mem_append.mp ha with hsegments | hlink
  · refine forall_mem_foldTrace (I := fun _ => True) (fun lc hlc _ _ => ?_)
      (fun _ _ _ _ _ _ => trivial) trivial a hsegments
    exact h.segmentAccesses_inBounds hlc h.segment_within hfile
  obtain ⟨loaded, hload, hlink⟩ := mem_afterOk.mp hlink
  have hsegs : ∀ sg ∈ moduleSegments env.upload, base ≤ sg.vmaddr ∧
      sg.vmaddr < 2 ^ 64 ∧ sg.filesize ≤ sg.vmsize := fun sg hsg =>
    ⟨h.base_le hsg, (segment_lt hsg).1, (h.segment_file sg hsg).1⟩
  have himage : loaded.image = Piece.layAll env.fresh
      ((moduleSegments env.upload).map (segmentPiece env.upload base)) := by
    rw [(loadSegments_of_ok hload).2]
    exact layAll_segmentPieces_eq hsegs
  have hintact : Intact env.upload
      (moduleTables env.upload symtab dysymtab) loaded.image :=
    himage ▸ intact_layAll
      (segmentPieces_apart (fun _ => h.base_le) h.segments_apart)
      (fun sg hsg => (h.segment_file sg hsg).1) h.tables_mapped
  have hsymtab := mem_of_lastWhere h.symtab_last
  have hdysymtab := mem_of_lastWhere h.dysymtab_last
  rcases List.mem_cons.mp hlink with rfl | hlink
  · have hwithin := h.command_within hdysymtab.1
    rw [show commandLength env.upload dysymtab = 80 by
      rw [commandLength, hdysymtab.2]; decide] at hwithin
    exact .inr (by omega)
  rcases List.mem_cons.mp hlink with rfl | hlink
  · have hwithin := h.command_within hsymtab.1
    rw [show commandLength env.upload symtab = 24 by
      rw [commandLength, hsymtab.2]; decide] at hwithin
    exact .inr (by omega)
  · obtain ⟨_, -, hlink⟩ := mem_afterOk.mp hlink
    exact h.relocateAccesses_inBounds hintact h.segment_within a hlink

/-- Whatever the command comes to, what it writes is in the allocation, and what
it reads of the upload was received. -/
theorem modloadAccesses_inBounds
    (h : TrustedModule env.upload env.recvCount base symtab dysymtab)
    (fuel : ℕ) : ∀ a ∈ modloadAccesses fuel env,
      a.InBounds env.upload (moduleAllocation env) env.recvCount := by
  intro a ha
  unfold modloadAccesses at ha
  by_cases hcount : env.recvCount < 0x4000
  · rw [if_pos hcount] at ha
    exact absurd ha List.not_mem_nil
  rw [if_neg hcount] at ha
  rcases List.mem_cons.mp ha with rfl | ha
  · exact .inr (by omega)
  by_cases hheader :
      env.upload.u32 0 ≠ magic64 ∨ env.upload.u32 12 ≠ mhKextBundle
  · rw [if_pos hheader] at ha
    exact absurd ha List.not_mem_nil
  rw [if_neg hheader] at ha
  rcases List.mem_append.mp ha with hcommands | hload
  · obtain ⟨lc, hlc, hlc'⟩ := List.mem_flatMap.mp hcommands
    exact h.scanAccesses_inBounds hlc a hlc'
  by_cases htruncated : env.recvCount < (moduleScan env).fileszExpected
  · simp only [if_pos htruncated] at hload
    exact absurd hload List.not_mem_nil
  · simp only [if_neg htruncated] at hload
    refine h.loadAccesses_inBounds (fun sg hsg => ?_) fuel hload
    have hfile := moduleScan_filesz.mp (Nat.not_lt.mp htruncated) sg hsg
    rwa [Nat.mod_eq_of_lt (h.segment_file sg hsg).2] at hfile

end Command

theorem WellFormedModule.string_end {upload : ByteMemory}
    {recvCount base symtab dysymtab i : ℕ} {names : ℕ → CString}
    (h : WellFormedModule upload recvCount base symtab dysymtab names)
    (hi : i < nsyms upload symtab) :
    ∃ n, (symbolAt upload symtab i).strx + n < strsize upload symtab ∧
      upload (stroff upload symtab + (symbolAt upload symtab i).strx + n) =
        0 := by
  obtain ⟨hname, hlength⟩ := h.name i hi
  exact ⟨_, hlength,
    List.head_eq_of_cons_eq (ByteMemory.holds_append.mp hname).2⟩

theorem trusted_sampleModule :
    TrustedModule (sampleModule 0) 0x4000 0 104 128 := by
  have hwf := @wellFormed_sampleModule 0 (.inl rfl)
  have hcommands := @moduleCommands_sample 0 (.inl rfl)
  have hsegments := @moduleSegments_sample 0 (.inl rfl)
  constructor
  case commands_end => decide +kernel
  case command_size =>
    rw [hcommands]
    decide +kernel
  case segment_name =>
    rw [hcommands]
    decide +kernel
  case base_least => exact hwf.base_least
  case segment_end => exact hwf.segment_end
  case segment_file =>
    rw [hsegments]
    decide
  case segment_top =>
    rw [hsegments]
    decide
  case segments_apart => exact hwf.segments_apart
  case symtab_last => exact hwf.symtab_last
  case dysymtab_last => exact hwf.dysymtab_last
  case tables_mapped => exact hwf.tables_mapped
  case strings_end => decide +kernel
  case string_end => exact fun i hi => hwf.string_end hi
  case symbolnum_lt => exact hwf.symbolnum_lt
  case slot_mapped => exact hwf.slot_mapped
  case slots_outside => exact hwf.slots_outside

theorem modloadAccesses_inBounds_sample :
    TrustedModule (sampleModule 0) 0x4000 0 104 128 ∧
      ∀ a ∈ modloadAccesses (2 ^ 33) (sampleModload 0),
        a.InBounds (sampleModule 0) (moduleAllocation (sampleModload 0))
          0x4000 :=
  ⟨trusted_sampleModule,
    @modloadAccesses_inBounds 0 104 128 (sampleModload 0)
      trusted_sampleModule _⟩

/-- The external slot is at a gigabyte. -/
def sampleWild : ModloadEnv :=
  { sampleModload 0 with
    upload := (sampleModule 0).write 384 [0, 0, 0, 0x40] }

theorem modloadAccesses_outOfBounds :
    0x4000 ≤ sampleWild.recvCount ∧ sampleWild.upload.u32 0 = magic64 ∧
      sampleWild.upload.u32 12 = mhKextBundle ∧
      (moduleScan sampleWild).fileszExpected ≤ sampleWild.recvCount ∧
      ∃ a ∈ modloadAccesses 64 sampleWild,
        ¬ a.InBounds sampleWild.upload (moduleAllocation sampleWild)
          sampleWild.recvCount := by
  have hmem : Access.store 0x40000000 8 ∈ modloadAccesses 64 sampleWild := by
    decide +kernel
  have hsize : moduleAllocation sampleWild = 0x4000 := by decide +kernel
  refine ⟨by decide, by decide +kernel, by decide +kernel, by decide +kernel,
    _, hmem, ?_⟩
  rw [hsize]
  unfold Access.InBounds
  decide

end PongoOS
