import PongoOS.Dynamic.ModloadImage

/-!
# Relocation of a module

The image is that of the segments, with its slots relocated.  Addresses in slots
are shifted by the distance between the allocation and the lowest segment, but
the addresses of the symbols that are looked up by the allocation alone, so that
the two agree only where the lowest segment is at 0.
-/

namespace PongoOS

open MachO

/-- The image holds the segments, apart from slots, which are relocated, and what
may be read of it is found from the module's address on. -/
structure ImageRelocated (fuel : ℕ) (env : ModloadEnv) (base dysymtab : ℕ)
    (names : ℕ → CString) (m : LoadedModule) : Prop where
  segment : ∀ sg ∈ moduleSegments env.upload, ∀ k < sg.vmsize,
    (∀ r ∈ moduleSlots env.upload dysymtab,
      ¬ (r.address ≤ sg.vmaddr - base + k ∧
        sg.vmaddr - base + k < r.address + 8)) →
    m.image (sg.vmaddr - base + k) =
      plainImage env.upload base (sg.vmaddr - base + k)
  externSlot : ∀ r ∈ externTable env.upload dysymtab, IsExternSlot r →
    resolveSymbol fuel env.linker.api env.linker.exports
        (names r.symbolnum).bytes = .ok (m.image.u64 r.address)
  localSlot : ∀ r ∈ localTable env.upload dysymtab, IsLocalSlot r →
    m.image.u64 r.address =
      slide m.vmBase base ((plainImage env.upload base).u64 r.address)
  mapped : ∀ sg ∈ moduleSegments env.upload, CanRead sg → ∀ k < sg.vmsize,
    m.virtual env (m.vmBase + (sg.vmaddr - base + k)) =
      some (m.image (sg.vmaddr - base + k))

/-- The image is relocated, and the symbols that are looked up have the addresses
they have in it. -/
structure Relocated (fuel : ℕ) (env : ModloadEnv) (base symtab dysymtab : ℕ)
    (names : ℕ → CString) (m : LoadedModule) : Prop where
  image : ImageRelocated fuel env base dysymtab names m
  pointers : PointersAt names
    (fun i => slide m.vmBase base (symbolAt env.upload symtab i).value)
    (nsyms env.upload symtab) m.pointers

section Run

variable {base symtab dysymtab fuel : ℕ} {names : ℕ → CString}
  {env : ModloadEnv} {T : ExportTable} {Ts : List ExportTable}
  {m : LoadedModule}

theorem resolvedAddress_lt (hready : ModloadReady env base dysymtab names T Ts)
    (i : ℕ) : resolvedAddress T Ts names i < 2 ^ 64 := by
  unfold resolvedAddress
  rcases h : (allEntries (T :: Ts)).lookup (names i).bytes with _ | v
  · exact Nat.two_pow_pos 64
  · obtain ⟨l₁, l₂, heq, _⟩ := List.lookup_eq_some_iff.mp h
    exact hready.exports_lt ((names i).bytes, v) (by simp [heq])

theorem slide_lt (vmaBase base x : ℕ) : slide vmaBase base x < 2 ^ 64 :=
  Nat.mod_lt _ (Nat.two_pow_pos 64)

/-- The slots of the image, where it is as the segments and slots are. -/
theorem imageRelocated_of
    (hwf : WellFormedModule env.upload env.recvCount base symtab dysymtab names)
    (hready : ModloadReady env base dysymtab names T Ts)
    (hfuel : 2 ^ 32 + walkLength (T :: Ts) ≤ fuel) {allocto : ℕ}
    (hpages : m.pages =
      modulePages env.toAddressSpace allocto m.vmBase base env.upload)
    (hfits : ImageFits env.toAddressSpace allocto m.vmBase base env.upload)
    (himage : m.image = Piece.layAll (Piece.layAll env.fresh
        ((moduleSegments env.upload).map (segmentPiece env.upload base)))
      (slotPieces m.vmBase base (resolvedAddress T Ts names) env.upload
        dysymtab (Piece.layAll env.fresh
          ((moduleSegments env.upload).map
            (segmentPiece env.upload base))))) :
    ImageRelocated fuel env base dysymtab names m := by
  have hslot : ∀ r ∈ moduleSlots env.upload dysymtab,
      m.image.u64 r.address =
        slotValue m.vmBase base (resolvedAddress T Ts names)
          (Piece.layAll env.fresh ((moduleSegments env.upload).map
            (segmentPiece env.upload base))) r % 2 ^ 64 := fun r hr => by
    rw [himage, u64_slotPieces hwf.slots_apart hr]
  constructor
  case segment =>
    intro sg hsg k hk hnone
    rw [himage, layAll_slotPieces_of_not hnone]
    exact hwf.layAll_eq_plainImage hsg hk
  case externSlot =>
    intro r hr hexternal
    rw [hslot r (mem_moduleSlots.mpr (.inl ⟨hr, hexternal⟩)), slotValue,
      if_pos hexternal, Nat.mod_eq_of_lt (resolvedAddress_lt hready _)]
    exact resolveSymbol_ok hready (by omega) _
  case localSlot =>
    intro r hr hlocal
    have hmem : r ∈ moduleSlots env.upload dysymtab :=
      mem_moduleSlots.mpr (.inr ⟨hr, hlocal⟩)
    rw [hslot r hmem, slotValue, if_neg (not_isExternSlot hlocal),
      Nat.mod_eq_of_lt (slide_lt _ _ _)]
    refine congrArg (slide m.vmBase base) (u64_congr fun i hi => ?_)
    obtain ⟨sg, hsg, hlo, hhi⟩ := hwf.slot_mapped r hmem
    obtain ⟨j, hj⟩ := Nat.exists_eq_add_of_le
      (show sg.vmaddr - base ≤ r.address + i by omega)
    rw [hj]
    exact hwf.layAll_eq_plainImage hsg (by omega)
  case mapped =>
    intro sg hsg hread k hk
    rw [LoadedModule.virtual, hpages]
    exact hfits.reads hsg hread hk

/-- Where the lowest segment is not at 0, the entry point is that far behind the
entry symbol's place in the image. -/
theorem not_relocated (hbase : base ≠ 0)
    (hwf : WellFormedModule env.upload env.recvCount base symtab dysymtab names)
    (hready : ModloadReady env base dysymtab names T Ts)
    (hfuel : 2 ^ 32 + walkLength (T :: Ts) ≤ fuel) :
    ¬ ∃ m, modloadCmd fuel env = .ok m ∧
      Relocated fuel env base symtab dysymtab names m := by
  rintro ⟨m', hrun', hrelocated⟩
  obtain ⟨m, hvmBase, -, -, hpointers, hrun⟩ :=
    modloadCmd_eq hwf hready hfuel
  obtain ⟨i, hi, hname, sg, hsg, hlo, hhi⟩ := hwf.entry
  have hentry := hpointers.entrypoint i hi hname
  have hle := hwf.base_le hsg
  have hend := hwf.segment_end sg hsg
  rw [hrun] at hrun'
  split at hrun'
  · cases hrun'
  · cases hrun'
    have hslide := hrelocated.pointers.entrypoint i hi hname
    beta_reduce at hentry hslide
    rw [hentry, hvmBase, slide] at hslide
    omega

theorem modloadCmd_iff
    (hwf : WellFormedModule env.upload env.recvCount base symtab dysymtab names)
    (hready : ModloadReady env base dysymtab names T Ts)
    (hfuel : 2 ^ 32 + walkLength (T :: Ts) ≤ fuel) :
    (∃ m, modloadCmd fuel env = .ok m ∧
        Relocated fuel env base symtab dysymtab names m) ↔ base = 0 := by
  constructor
  · intro h
    by_contra hbase
    exact not_relocated hbase hwf hready hfuel h
  · rintro rfl
    obtain ⟨m, hvmBase, ⟨allocto, hpages, hfits⟩, himage, hpointers, hrun⟩ :=
      modloadCmd_eq hwf hready hfuel
    obtain ⟨i, hi, hname, sg, hsg, hlo, hhi⟩ := hwf.entry
    have hentry := hpointers.entrypoint i hi hname
    beta_reduce at hentry
    have hcursor := hready.cursor_ge
    have hroom := hready.room sg hsg
    have hend := hwf.segment_end sg hsg
    unfold linearKvmBase at hcursor
    unfold linearKvmEnd at hroom
    refine ⟨m, ?_, imageRelocated_of hwf hready hfuel (hvmBase ▸ hpages)
      (hvmBase ▸ hfits) (hvmBase ▸ himage), hpointers.congr fun j hj => ?_⟩
    · rw [hrun, if_neg (by omega)]
    · rw [hvmBase, slide, Nat.sub_zero, Nat.add_mod_right]

end Run

/-! ## An upload -/

/-- A module of one segment, which is at `256 * page` and has all rights, with the
symbols `_module_entry` and `_x` and a slot of either kind. -/
def sampleModule (page : UInt8) : ByteMemory :=
  List.foldl (fun (m : ByteMemory) w => m.write w.1 w.2) (fun _ => 0) [
    (0, [0xcf, 0xfa, 0xed, 0xfe]), (12, [0x0b]), (16, [3]),
    (32, [0x19]), (36, [72]), (57, [page]), (65, [2]), (81, [2]), (92, [7]),
    (104, [2]), (108, [24]), (113, [1]), (116, [2]), (120, [0x40, 1]),
    (124, [32]),
    (128, [0x0b]), (132, [80]), (192, [0x80, 1]), (196, [1]),
    (200, [0x88, 1]), (204, [1]),
    (256, [1]), (264, [0xc0, page + 1]), (272, [15]),
    (321, moduleEntryName.bytes), (335, [95, 120]),
    (384, [0xe0, 1, 0, 0, 1, 0, 0, 0x0e]),
    (392, [0xe8, 1, 0, 0, 0, 0, 0, 0x06])]

def sampleNames : ℕ → CString
  | 0 => moduleEntryName
  | _ => ⟨[95, 120], by decide⟩

def sampleApi : ExportTable := ⟨8, [([95, 120], 0x1234)]⟩

/-- RAM is at `0x800000000`, and the cacheable view of it is as in the source. -/
def sampleSpace : AddressSpace where
  granule := .kb16
  heapEnd := heapBase
  parEl1 a := a - kCacheableView + 0x800000000

def sampleModload (page : UInt8) : ModloadEnv where
  recvCount := 0x4000
  cursor := linearKvmBase
  linker := ⟨fun a => if a = 8 then ⟨some [95, 120], 0x1234⟩ else ⟨none, 0⟩, 8⟩
  modules := []
  mapped := []
  toAddressSpace := sampleSpace
  upload := sampleModule page
  contig := fun _ => .ok 0x418000000
  fresh := fun _ => 0
  rest := fun _ => none
  dysymtab := 0
  entrypoint := 0

section Sample

variable {page : UInt8}

/-- What the load commands of the sample say. -/
theorem tables_sample (hpage : page = 0 ∨ page = 0x40) :
    moduleCommands (sampleModule page) = [32, 104, 128] ∧
      externTable (sampleModule page) 128 = [⟨0x1e0, 1, 3, true⟩] ∧
      localTable (sampleModule page) 128 = [⟨0x1e8, 0, 3, false⟩] ∧
      moduleTables (sampleModule page) 104 128 =
        [(0x100, 32), (0x180, 8), (0x188, 8)] := by
  rcases hpage with rfl | rfl <;> decide +kernel

theorem moduleCommands_sample (hpage : page = 0 ∨ page = 0x40) :
    moduleCommands (sampleModule page) = [32, 104, 128] :=
  (tables_sample hpage).1

/-- Where the one segment is. -/
theorem moduleSegments_sample (hpage : page = 0 ∨ page = 0x40) :
    moduleSegments (sampleModule page) =
      [⟨2 ^ 64, 256 * page.toNat, 0x200, 0, 0x200, 7, []⟩] := by
  rw [moduleSegments, moduleCommands_sample hpage]
  rcases hpage with rfl | rfl <;> decide +kernel

theorem externTable_sample (hpage : page = 0 ∨ page = 0x40) :
    externTable (sampleModule page) 128 = [⟨0x1e0, 1, 3, true⟩] :=
  (tables_sample hpage).2.1

theorem moduleSlots_sample (hpage : page = 0 ∨ page = 0x40) :
    moduleSlots (sampleModule page) 128 =
      [⟨0x1e0, 1, 3, true⟩, ⟨0x1e8, 0, 3, false⟩] := by
  rw [moduleSlots, externTable_sample hpage, (tables_sample hpage).2.2.1]
  decide

theorem wellFormed_sampleModule (hpage : page = 0 ∨ page = 0x40) :
    WellFormedModule (sampleModule page) 0x4000 (256 * page.toNat) 104 128
      sampleNames := by
  have hsegments := moduleSegments_sample hpage
  have hslots := moduleSlots_sample hpage
  have htables := (tables_sample hpage).2.2.2
  have hnsyms : nsyms (sampleModule page) 104 = 2 := by
    rcases hpage with rfl | rfl <;> decide +kernel
  have hsymbol : (symbolAt (sampleModule page) 104 0).value =
      256 * page.toNat + 0x1c0 := by
    rcases hpage with rfl | rfl <;> decide +kernel
  constructor
  case recvCount_ge => exact Nat.le_refl _
  case magic => rcases hpage with rfl | rfl <;> decide +kernel
  case filetype => rcases hpage with rfl | rfl <;> decide +kernel
  case base_least => simp [hsegments]
  case segment_aligned =>
    rw [hsegments]
    rcases hpage with rfl | rfl <;> decide
  case segment_end =>
    rw [hsegments]
    rcases hpage with rfl | rfl <;> decide
  case segment_file =>
    rw [hsegments]
    rcases hpage with rfl | rfl <;> decide
  case segments_apart =>
    rw [hsegments]
    exact List.pairwise_singleton _ _
  case symtab_last =>
    rw [lastSymtab, moduleCommands_sample hpage]
    rcases hpage with rfl | rfl <;> decide +kernel
  case dysymtab_last =>
    rw [lastDysymtab, moduleCommands_sample hpage]
    rcases hpage with rfl | rfl <;> decide +kernel
  case strings_mapped =>
    rw [hsegments]
    rcases hpage with rfl | rfl <;> decide +kernel
  case tables_mapped =>
    rw [htables]
    intro t ht
    refine .inr ⟨_, hsegments ▸ List.mem_singleton_self _, ?_⟩
    revert t
    rcases hpage with rfl | rfl <;> decide
  case name =>
    rw [hnsyms]
    rcases hpage with rfl | rfl <;> decide +kernel
  case looked_unique =>
    rw [hnsyms]
    unfold IsLooked
    decide
  case entry =>
    rw [hnsyms, hsegments]
    refine ⟨0, Nat.two_pos, rfl, _, List.mem_singleton_self _, ?_⟩
    rw [hsymbol]
    exact ⟨Nat.le_add_right _ _,
      Nat.add_lt_add_left (by decide : 0x1c0 < 0x200) _⟩
  case symbolnum_lt =>
    rw [hnsyms, externTable_sample hpage]
    decide
  case slot_mapped =>
    rw [hslots, hsegments]
    rcases hpage with rfl | rfl <;> decide
  case slots_apart =>
    rw [hslots]
    unfold SlotsApart
    decide
  case slots_outside =>
    rw [hslots, htables]
    unfold OutsideTables
    decide

theorem sampleSpace_ram : IsRamPage sampleSpace 0x418000000 := by
  constructor
  case contiguous =>
    constructor
    case ttbr0 => decide
    case not_heap => decide
    case not_kvm => decide
  case aligned => decide
  case pos => decide
  case lt => decide

theorem ready_sampleModload (hpage : page = 0 ∨ page = 0x40) :
    ModloadReady (sampleModload page) (256 * page.toNat) 128 sampleNames
      sampleApi [] := by
  have hsegments : moduleSegments (sampleModload page).upload = _ :=
    moduleSegments_sample hpage
  have hsize : moduleSize (sampleModload page).upload = 0x200 := by
    rw [moduleSize, moduleBase, moduleRange, hsegments]
    rcases hpage with rfl | rfl <;> decide +kernel
  constructor
  case alloc =>
    refine ⟨0x418000000, rfl, fun a ha haligned => ?_⟩
    rw [hsize] at ha
    obtain rfl : a = 0 := by
      unfold allocationSize pageSize at *
      omega
    exact sampleSpace_ram
  case cursor_ge => exact Nat.le_refl _
  case cursor_aligned => exact (by decide : linearKvmBase % pageSize = 0)
  case room =>
    rw [hsegments]
    rcases hpage with rfl | rfl <;> decide
  case recvCount_lt => exact (by decide : 0x4000 < 2 ^ 32)
  case linked =>
    refine ⟨by decide, fun i hi => ?_, rfl⟩
    obtain rfl : i = 0 := Nat.lt_one_iff.mp hi
    rfl
  case api_eq => rfl
  case exports_lt => decide
  case resolvable =>
    intro r hr _
    have hr : r ∈ externTable (sampleModule page) 128 := hr
    rw [externTable_sample hpage, List.mem_singleton] at hr
    exact ⟨0x1234, by rw [hr]; rfl, by decide⟩

end Sample

theorem modloadCmd_iff_sample :
    ∃ m, modloadCmd (2 ^ 33) (sampleModload 0) = .ok m ∧
      Relocated (2 ^ 33) (sampleModload 0) 0 104 128 sampleNames m :=
  (modloadCmd_iff (wellFormed_sampleModule (.inl rfl))
    (ready_sampleModload (.inl rfl)) (by decide)).mpr rfl

theorem modloadCmd_not_relocated :
    WellFormedModule (sampleModload 0x40).upload (sampleModload 0x40).recvCount
        0x4000 104 128 sampleNames ∧
      ModloadReady (sampleModload 0x40) 0x4000 128 sampleNames sampleApi [] ∧
      ¬ ∃ m, modloadCmd (2 ^ 33) (sampleModload 0x40) = .ok m ∧
        Relocated (2 ^ 33) (sampleModload 0x40) 0x4000 104 128 sampleNames m :=
  have hwf := wellFormed_sampleModule (.inr rfl)
  have hready := ready_sampleModload (.inr rfl)
  ⟨hwf, hready, not_relocated (by decide) hwf hready (by decide)⟩

end PongoOS
