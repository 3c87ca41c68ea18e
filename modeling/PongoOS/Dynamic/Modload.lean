import PongoOS.Dynamic.Exports
import PongoOS.Mm.KernelPages
import PongoOS.Support.MachO

/-!
# Loading a module

`modload_cmd` lays the segments of an uploaded Mach-O file out in one
allocation, maps the allocation, looks three symbols up, and relocates.

`upload` is memory from `loader_xfer_recv_data` on and `image` is memory from the
start of the allocation on; the two do not overlap.  The names of symbols are
read through the mapping, at addresses from `vma_base` on, where a segment
without the right to read is not found.
-/

namespace PongoOS

open MachO

def mhKextBundle : ℕ := 0xb

def lcSymtab : ℕ := 0x2

def lcDysymtab : ℕ := 0xb

/-! ## The first loop over the load commands -/

structure ModloadScan where
  fileszExpected : ℕ
  vmszNeeded : ℕ
  baseVmaddr : ℕ
  symtab : Option ℕ
  dysymtab : ℕ
deriving DecidableEq, Repr

def scanCommand (upload : ByteMemory) (s : ModloadScan) (lc : ℕ) :
    ModloadScan :=
  if upload.u32 lc = lcSegment64 then
    let sg := layout64.readSegment upload lc
    { s with
      baseVmaddr :=
        if sg.vmaddr < s.baseVmaddr then sg.vmaddr else s.baseVmaddr
      fileszExpected :=
        if s.fileszExpected < (sg.fileoff + sg.filesize) % 2 ^ 64 then
          (sg.fileoff + sg.filesize) % 2 ^ 64
        else s.fileszExpected
      vmszNeeded :=
        if s.vmszNeeded < (sg.vmaddr + sg.vmsize) % 2 ^ 64 then
          (sg.vmaddr + sg.vmsize) % 2 ^ 64
        else s.vmszNeeded }
  else if upload.u32 lc = lcDysymtab then { s with dysymtab := lc }
  else if upload.u32 lc = lcSymtab then { s with symtab := some lc }
  else s

/-- The size that `alloc_contig` is asked for, a `uint32_t`. -/
def allocationSize (vmszNeeded : ℕ) : ℕ :=
  (vmszNeeded + 0x3fff) % 2 ^ 64 / 0x4000 * 0x4000 % 2 ^ 32

/-! ## The second loop over the load commands -/

/-- `struct pongo_module_segment_info`, without the name. -/
structure ModuleSegment where
  vmAddr : ℕ
  vmSize : ℕ
  prot : ℕ
deriving DecidableEq, Repr

structure ModloadImage where
  image : ByteMemory
  pages : List MappedPage
  segments : List ModuleSegment

/-- The bits for reading, writing and executing are the same in both. -/
def segmentProt (initprot : ℕ) : ℕ := initprot % 8

def protKernOnly : ℕ := 8

section Load

variable (A : AddressSpace) (allocto vmaBase baseVmaddr : ℕ)

/-- The page that maps what a segment has from `page` on. -/
def pageOf (sg : Segment) (page pa : ℕ) : MappedPage where
  va := sub64 ((vmaBase + page + sg.vmaddr) % 2 ^ 64) baseVmaddr
  off := sub64 ((page + sg.vmaddr) % 2 ^ 64) baseVmaddr
  pa := pa
  prot := segmentProt sg.initprot + protKernOnly

/-- `(uint64_t)(allocto + page + sg->vmaddr - base_vmaddr)`. -/
def pageAddress (sg : Segment) (page : ℕ) : ℕ :=
  sub64 ((allocto + page + sg.vmaddr) % 2 ^ 64) baseVmaddr

/-- The body of the loop that maps a segment. -/
def mapPage (sg : Segment) (page : ℕ) : Outcome MappedPage := do
  let ppage ← vatophys A (pageAddress allocto baseVmaddr sg page)
  mapPagePhysicalProt A.granule (pageOf vmaBase baseVmaddr sg page ppage)

/-- The loop that maps a segment.  `page` is a `uint32_t`. -/
def mapPages (sg : Segment) :
    ℕ → ℕ → List MappedPage → Outcome (List MappedPage)
  | 0, _, _ => .error .outOfFuel
  | fuel + 1, page, pages =>
      if sg.vmsize ≤ page then pure pages
      else do
        let p ← mapPage A allocto vmaBase baseVmaddr sg page
        mapPages sg fuel ((page + pageSize) % 2 ^ 32) (pages ++ [p])

def zeroFill (m : ByteMemory) (a n : ℕ) : ByteMemory := fun x =>
  if a ≤ x ∧ x < a + n then 0 else m x

def loadSegment (fuel : ℕ) (upload : ByteMemory) (s : ModloadImage) (lc : ℕ) :
    Outcome ModloadImage :=
  if upload.u32 lc = lcSegment64 then do
    let sg := layout64.readSegment upload lc
    let off := sub64 sg.vmaddr baseVmaddr
    let image := (zeroFill s.image off sg.vmsize).write off
      (upload.bytesAt sg.fileoff sg.filesize)
    let pages ← mapPages A allocto vmaBase baseVmaddr sg fuel 0 s.pages
    pure ⟨image, pages,
      s.segments ++ [⟨sg.vmaddr, sg.vmsize, segmentProt sg.initprot⟩]⟩
  else pure s

end Load

/-! ## Symbols -/

/-- `struct nlist_64`, as far as it is read. -/
structure Nlist where
  strx : ℕ
  value : ℕ
deriving DecidableEq, Repr

def readNlist (m : ByteMemory) (a : ℕ) : Nlist := ⟨m.u32 a, m.u64 (a + 8)⟩

def symoff (upload : ByteMemory) (symtab : ℕ) : ℕ := upload.u32 (symtab + 8)

def nsyms (upload : ByteMemory) (symtab : ℕ) : ℕ := upload.u32 (symtab + 12)

def stroff (upload : ByteMemory) (symtab : ℕ) : ℕ := upload.u32 (symtab + 16)

def strsize (upload : ByteMemory) (symtab : ℕ) : ℕ := upload.u32 (symtab + 20)

/-- `"_module_entry"`. -/
def moduleEntryName : CString :=
  ⟨[95, 109, 111, 100, 117, 108, 101, 95, 101, 110, 116, 114, 121], by decide⟩

/-- `"_module_name"`. -/
def moduleNameName : CString :=
  ⟨[95, 109, 111, 100, 117, 108, 101, 95, 110, 97, 109, 101], by decide⟩

/-- `"_exported_symbols"`. -/
def exportedSymbolsName : CString :=
  ⟨[95, 101, 120, 112, 111, 114, 116, 101, 100, 95, 115, 121, 109, 98, 111, 108,
    115], by decide⟩

/-- The pointers that are looked up. -/
structure ModulePointers where
  entrypoint : ℕ
  modname : ℕ
  exports : ℕ
deriving DecidableEq, Repr

/-- `strcmp(name, s) == 0`, or an abort. -/
def nameIs (virtual : ℕ → Option UInt8) (s : CString) (name : ℕ) :
    Outcome Bool :=
  match strEqThrough virtual s.bytes name with
  | some b => .ok b
  | none => .error (.panic "data abort")

/-- The body of the loop over symbols.  Names are read through the mapping. -/
def lookSymbol (virtual : ℕ → Option UInt8) (vmaBase stroff : ℕ)
    (p : ModulePointers) (nl : Nlist) : Outcome ModulePointers := do
  let name := vmaBase + stroff + nl.strx
  let value := (nl.value + vmaBase) % 2 ^ 64
  let p := if ← nameIs virtual moduleEntryName name then
    { p with entrypoint := value } else p
  let p := if ← nameIs virtual moduleNameName name then
    { p with modname := value } else p
  let cmp ← nameIs virtual exportedSymbolsName name
  pure (if cmp ∧ p.exports = 0 then { p with exports := value } else p)

/-! ## Relocations -/

/-- `struct relocation_info`, as far as it is read. -/
structure Relocation where
  address : ℕ
  symbolnum : ℕ
  length : ℕ
  isExtern : Bool
deriving DecidableEq, Repr

/-- An `int32_t` as a 64-bit word. -/
def signExtend32 (x : ℕ) : ℕ := if x < 2 ^ 31 then x else x + (2 ^ 64 - 2 ^ 32)

def readRelocation (m : ByteMemory) (a : ℕ) : Relocation where
  address := signExtend32 (m.u32 a)
  symbolnum := m.u32 (a + 4) % 2 ^ 24
  length := m.u32 (a + 4) / 2 ^ 25 % 4
  isExtern := m.u32 (a + 4) / 2 ^ 27 % 2 == 1

def extreloff (upload : ByteMemory) (dysymtab : ℕ) : ℕ :=
  upload.u32 (dysymtab + 64)

def nextrel (upload : ByteMemory) (dysymtab : ℕ) : ℕ :=
  upload.u32 (dysymtab + 68)

def locreloff (upload : ByteMemory) (dysymtab : ℕ) : ℕ :=
  upload.u32 (dysymtab + 72)

def nlocrel (upload : ByteMemory) (dysymtab : ℕ) : ℕ :=
  upload.u32 (dysymtab + 76)

/-- What a module is linked against: the exports, from `api` on. -/
structure Linker where
  exports : ExportMemory
  api : ℕ

/-- `struct pongo_module_info`, without the name. -/
structure ModuleInfo where
  exports : ℕ
  vmBase : ℕ
  vmEnd : ℕ
  segments : List ModuleSegment
deriving DecidableEq, Repr

/-- What the command may change besides the allocation: the upload's count, the
cursor of `linear_kvm_alloc`, the exports, the list of modules and the mappings. -/
structure ModloadGlobals where
  recvCount : ℕ
  cursor : ℕ
  linker : Linker
  modules : List ModuleInfo
  mapped : List MappedPage

/-- How `modload_cmd` ends without a module: with a line, or not at all. -/
inductive ModloadEnd where
  | puts (line : String) (after : ModloadGlobals)
  | stop (why : Stop)

def orStop {α : Type} : Outcome α → Except ModloadEnd α
  | .ok a => .ok a
  | .error e => .error (.stop e)

theorem orStop_ok {α : Type} (a : α) : orStop (.ok a) = .ok a := rfl

section Relocate

variable (fuel : ℕ) (globals : ModloadGlobals) (upload : ByteMemory)
  (vmaBase baseVmaddr symtab dysymtab : ℕ)

/-- The body of the loop over external relocations. -/
def relocateExtern (image : ByteMemory) (i : ℕ) :
    Except ModloadEnd ByteMemory :=
  let ri := readRelocation image (extreloff upload dysymtab + 8 * i)
  if ri.isExtern = false ∨ ri.length ≠ 3 then pure image
  else do
    let nl := readNlist image (symoff upload symtab + 16 * ri.symbolnum)
    let name := stroff upload symtab + nl.strx
    let len ← orStop (strlen upload fuel name)
    let value ← orStop (resolveSymbol fuel globals.linker.api
      globals.linker.exports (upload.bytesAt name len))
    if value = 0 then
      .error (.puts "[modload_macho:!] load module: linking failed" globals)
    else pure (image.write ri.address (toLittleEndian 8 value))

/-- The body of the loop over local relocations. -/
def relocateLocal (image : ByteMemory) (i : ℕ) : ByteMemory :=
  let ri := readRelocation image (locreloff upload dysymtab + 8 * i)
  if ri.isExtern = true ∨ ri.length ≠ 3 then image
  else image.write ri.address (toLittleEndian 8
    ((sub64 (image.u64 ri.address) baseVmaddr + vmaBase) % 2 ^ 64))

end Relocate

/-! ## `modload_cmd` -/

/-- The module before its name is printed and its entry point called. -/
structure LoadedModule where
  vmBase : ℕ
  pages : List MappedPage
  image : ByteMemory
  pointers : ModulePointers
  globals : ModloadGlobals

/-- What is in the globals, in memory and on the stack before. -/
structure ModloadEnv extends ModloadGlobals, AddressSpace where
  upload : ByteMemory
  /-- what `alloc_contig` does -/
  contig : ℕ → Outcome ℕ
  /-- what is in the allocation -/
  fresh : ByteMemory
  /-- what is mapped besides the module -/
  rest : ℕ → Option UInt8
  /-- `dysymtab` and `entrypoint` before they are assigned -/
  dysymtab : ℕ
  entrypoint : ℕ

/-- Memory as the module sees it. -/
def LoadedModule.virtual (m : LoadedModule) (env : ModloadEnv) :
    ℕ → Option UInt8 :=
  throughPages env.granule m.pages m.image env.rest

/-- What follows the loops over load commands: the symbols, the relocations and
the exports. -/
def linkModule (fuel : ℕ) (env : ModloadEnv)
    (cursor vmaBase baseVmaddr vmszNeeded symtab dysymtab : ℕ)
    (loaded : ModloadImage) : Except ModloadEnd LoadedModule := do
  let upload := env.upload
  let module : ModuleInfo :=
    ⟨0, vmaBase, (vmaBase + vmszNeeded) % 2 ^ 64, loaded.segments⟩
  let globals : ModloadGlobals :=
    { env.toModloadGlobals with
      cursor := cursor
      modules := module :: env.modules
      mapped := env.mapped ++ loaded.pages }
  let virtual := throughPages env.granule loaded.pages loaded.image env.rest
  let pointers ← orStop ((List.range (nsyms upload symtab)).foldlM
    (fun p i => lookSymbol virtual vmaBase (stroff upload symtab) p
      (readNlist loaded.image (symoff upload symtab + 16 * i)))
    ⟨env.entrypoint, 0, 0⟩)
  let image ← (List.range (nextrel upload dysymtab)).foldlM
    (relocateExtern fuel globals upload symtab dysymtab) loaded.image
  let image := (List.range (nlocrel upload dysymtab)).foldl
    (relocateLocal upload vmaBase baseVmaddr dysymtab) image
  let exports ← orStop (linkExports fuel env.linker.api env.linker.exports
    pointers.exports)
  if pointers.entrypoint = 0 then .error (.stop (.panic "no entryp"))
  else pure ⟨vmaBase, loaded.pages, image, pointers,
    { globals with
      linker := ⟨exports, env.linker.api⟩
      modules := { module with exports := pointers.exports } :: env.modules }⟩

def modloadCmd (fuel : ℕ) (env : ModloadEnv) :
    Except ModloadEnd LoadedModule :=
  let upload := env.upload
  let unread := { env.toModloadGlobals with recvCount := 0 }
  if env.recvCount < 0x4000 then
    .error (.puts "[modload_macho:!] load module: short read" unread)
  else if upload.u32 0 ≠ magic64 then
    .error (.puts "[modload_macho:!] load module: not mach-o" unread)
  else if upload.u32 12 ≠ mhKextBundle then
    .error (.puts "[modload_macho:!] load module: need dylib" unread)
  else
    let lcs := loadCommands upload (upload.u32 16) 32
    let scan := lcs.foldl (scanCommand upload)
      ⟨0, 0, 2 ^ 64 - 1, none, env.dysymtab⟩
    let vmszNeeded := sub64 scan.vmszNeeded scan.baseVmaddr
    if env.recvCount < scan.fileszExpected then
      .error (.puts "[modload_macho:!] load module: truncated load" unread)
    else do
      let allocto ← orStop (env.contig (allocationSize vmszNeeded))
      let (vmaBase, cursor) ← orStop (linearKvmAlloc env.cursor vmszNeeded)
      let loaded ← orStop (lcs.foldlM
        (loadSegment env.toAddressSpace allocto vmaBase scan.baseVmaddr fuel
          upload)
        ⟨env.fresh, [], []⟩)
      match scan.symtab with
      | some symtab =>
          linkModule fuel env cursor vmaBase scan.baseVmaddr vmszNeeded symtab
            scan.dysymtab loaded
      -- the command is read through a null pointer
      | none => .error (.stop (.panic "data abort"))

end PongoOS
