import PongoOS.Support.ByteMemory

/-!
# The directory of fw_cfg

The device delivers the selected item through a port, byte after byte.  Every load
from the port takes as many bytes as it is wide.  `fw_cfg_find_file` reads the
entries of the directory until it finds the name.
-/

namespace PongoOS

/-! ## The port -/

/-- `__bswap16` and so on, for words of `n` bytes. -/
def bswap (n x : ℕ) : ℕ := bigEndian (toLittleEndian n x)

/-- The device: what each value of the selector register selects, and how much of
it was delivered. -/
structure FwCfg where
  items : ℕ → ByteMemory
  selector : ℕ
  pos : ℕ

namespace FwCfg

/-- The item that is delivered. -/
def item (d : FwCfg) : ByteMemory := d.items d.selector

def skip (d : FwCfg) (n : ℕ) : FwCfg := { d with pos := d.pos + n }

/-- A load of `n` bytes from `FW_CFG_DATA`. -/
def load (n : ℕ) (d : FwCfg) : ℕ × FwCfg :=
  (littleEndian (d.item.bytesAt d.pos n), d.skip n)

end FwCfg

def fwCfgSelect (selector : ℕ) (d : FwCfg) : FwCfg :=
  { d with selector := bswap 2 (selector ||| 1 <<< 14), pos := 0 }

def fwCfgRead16 (d : FwCfg) : ℕ × FwCfg :=
  let (val, d) := d.load 2
  (bswap 2 val, d)

def fwCfgRead32 (d : FwCfg) : ℕ × FwCfg :=
  let (val, d) := d.load 4
  (bswap 4 val, d)

def fwCfgRead64Raw (d : FwCfg) : ℕ × FwCfg := d.load 8

/-- `fw_cfg_read_bytes`, with the bytes that it copies to `buf`. -/
def fwCfgReadBytes (remSize : ℕ) (d : FwCfg) : List UInt8 × FwCfg :=
  if remSize = 0 then ([], d)
  else
    let (val, d) := fwCfgRead64Raw d
    let toRead := if remSize < 8 then remSize else 8
    let (bytes, d) := fwCfgReadBytes (remSize - toRead) d
    ((toLittleEndian 8 val).take toRead ++ bytes, d)
termination_by remSize
decreasing_by split <;> omega

/-! ## The directory -/

/-- `struct fw_cfg_file`. -/
structure FwCfgFile where
  size : ℕ
  select : ℕ
  reserved : ℕ
  name : List UInt8
deriving DecidableEq, Repr

def fwCfgNameSize : ℕ := 56

def fwCfgFileDir : ℕ := 0x19

/-- One entry is read. -/
def fwCfgReadFile (d : FwCfg) : FwCfgFile × FwCfg :=
  let (size, d) := fwCfgRead32 d
  let (select, d) := fwCfgRead16 d
  let (reserved, d) := fwCfgRead16 d
  let (name, d) := fwCfgReadBytes fwCfgNameSize d
  (⟨size, select, reserved, name⟩, d)

/-- `!strcmp(file.name, name)`; `file.name` is on the stack. -/
def FwCfgFile.isNamed (stack : ByteMemory) (sp : ℕ) (name : CString)
    (file : FwCfgFile) : Bool :=
  (stack.write sp file.name).strEq name.bytes sp

/-- What `fw_cfg_find_file` does: every entry that it read, and the one that it
stores the selector and the size of. -/
structure FwCfgSearch where
  files : List FwCfgFile
  found : Option FwCfgFile
  dev : FwCfg

/-- The loop of `fw_cfg_find_file`, for the entries that are left. -/
def fwCfgFindLoop (stack : ByteMemory) (sp : ℕ) (name : CString) :
    ℕ → FwCfg → FwCfgSearch
  | 0, d => ⟨[], none, d⟩
  | count + 1, d =>
      let (file, d) := fwCfgReadFile d
      if file.isNamed stack sp name then ⟨[file], some file, d⟩
      else
        let search := fwCfgFindLoop stack sp name count d
        { search with files := file :: search.files }

def fwCfgFindFile (stack : ByteMemory) (sp : ℕ) (name : CString) (d : FwCfg) :
    FwCfgSearch :=
  let (count, d) := fwCfgRead32 (fwCfgSelect fwCfgFileDir d)
  fwCfgFindLoop stack sp name count d

/-! ## What is read -/

section Reads

variable {d : FwCfg} {n k : ℕ} {bs : List UInt8}

@[simp] theorem FwCfg.item_skip : (d.skip n).item = d.item := rfl

@[simp] theorem FwCfg.pos_skip : (d.skip n).pos = d.pos + n := rfl

theorem FwCfg.skip_skip : (d.skip n).skip k = d.skip (n + k) := by
  rw [FwCfg.skip, FwCfg.skip, FwCfg.skip, Nat.add_assoc]

theorem bswap_littleEndian (h : bs.length = n) :
    bswap n (littleEndian bs) = bigEndian bs := by
  rw [bswap, ← h, toLittleEndian_littleEndian]

theorem fwCfgRead16_eq :
    fwCfgRead16 d = (bigEndian (d.item.bytesAt d.pos 2), d.skip 2) := by
  rw [← bswap_littleEndian ByteMemory.length_bytesAt]
  rfl

theorem fwCfgRead32_eq :
    fwCfgRead32 d = (bigEndian (d.item.bytesAt d.pos 4), d.skip 4) := by
  rw [← bswap_littleEndian ByteMemory.length_bytesAt]
  rfl

theorem fwCfgRead64Raw_take (h : k ≤ 8) :
    (toLittleEndian 8 (fwCfgRead64Raw d).1).take k = d.item.bytesAt d.pos k := by
  have hbytes : toLittleEndian 8 (littleEndian (d.item.bytesAt d.pos 8)) =
      d.item.bytesAt d.pos 8 := by
    have hlength : (d.item.bytesAt d.pos 8).length = 8 := ByteMemory.length_bytesAt
    rw [← hlength]
    exact toLittleEndian_littleEndian
  rw [fwCfgRead64Raw, FwCfg.load, hbytes, ByteMemory.take_bytesAt h]

/-- The bytes are read in order; the last load may take more of the item. -/
theorem fwCfgReadBytes_eq :
    fwCfgReadBytes n d =
      (d.item.bytesAt d.pos n, d.skip (8 * ((n + 7) / 8))) := by
  induction n using Nat.strong_induction_on generalizing d with
  | h n ih =>
      rw [fwCfgReadBytes]
      split
      · rename_i hzero
        subst hzero
        rfl
      · rename_i hpos
        dsimp only
        by_cases hlast : n < 8
        · have hloads : 8 * ((n + 7) / 8) = 8 := by omega
          rw [if_pos hlast, Nat.sub_self, fwCfgReadBytes, if_pos rfl,
            fwCfgRead64Raw_take (by omega), List.append_nil, hloads]
          rfl
        · obtain ⟨r, rfl⟩ := Nat.exists_eq_add_of_le (not_lt.mp hlast)
          have hloads : 8 * ((8 + r + 7) / 8) = 8 + 8 * ((r + 7) / 8) := by omega
          rw [if_neg hlast, Nat.add_sub_cancel_left, ih r (by omega),
            fwCfgRead64Raw_take (by omega), hloads, ByteMemory.bytesAt_add,
            ← FwCfg.skip_skip]
          rfl

end Reads

/-! ## Directories -/

/-- An entry of the directory, as the device has it. -/
structure FwCfgEntry where
  size : ℕ
  select : ℕ
  reserved : ℕ
  name : List UInt8
  size_lt : size < 2 ^ 32
  select_lt : select < 2 ^ 16
  reserved_lt : reserved < 2 ^ 16
  name_length : name.length = fwCfgNameSize
  terminated : 0 ∈ name

namespace FwCfgEntry

def bytes (e : FwCfgEntry) : List UInt8 :=
  toBigEndian 4 e.size ++ toBigEndian 2 e.select ++ toBigEndian 2 e.reserved ++ e.name

/-- The string in the field. -/
def fileName (e : FwCfgEntry) : List UInt8 := e.name.takeWhile (· ≠ 0)

/-- The fields in the order of the processor's bytes. -/
def file (e : FwCfgEntry) : FwCfgFile := ⟨e.size, e.select, e.reserved, e.name⟩

theorem length_bytes (e : FwCfgEntry) : e.bytes.length = 64 := by
  simp [bytes, e.name_length, fwCfgNameSize]

end FwCfgEntry

/-- The stream of a directory: the number of entries and the entries. -/
def fwCfgDirectory (entries : List FwCfgEntry) : List UInt8 :=
  toBigEndian 4 entries.length ++ entries.flatMap FwCfgEntry.bytes

section Search

variable {d : FwCfg} {entries : List FwCfgEntry} {e : FwCfgEntry} {name : CString}
  {stack : ByteMemory} {sp : ℕ}

/-- The fields of an entry are read from where they are, and the next entry
follows. -/
theorem fwCfgReadFile_entry (h : d.item.Holds d.pos e.bytes) :
    fwCfgReadFile d = (e.file, d.skip 64) := by
  rw [FwCfgEntry.bytes, ByteMemory.holds_append, ByteMemory.holds_append,
    ByteMemory.holds_append] at h
  obtain ⟨⟨⟨hsize, hselect⟩, hreserved⟩, hname⟩ := h
  simp only [ByteMemory.Holds, List.length_append, length_toBigEndian,
    e.name_length] at hsize hselect hreserved hname
  have hsize' : bigEndian (d.item.bytesAt d.pos 4) = e.size := by
    rw [hsize, bigEndian_toBigEndian]
    exact Nat.mod_eq_of_lt e.size_lt
  have hselect' : bigEndian (d.item.bytesAt (d.pos + 4) 2) = e.select := by
    rw [hselect, bigEndian_toBigEndian]
    exact Nat.mod_eq_of_lt e.select_lt
  have hreserved' : bigEndian (d.item.bytesAt (d.pos + 6) 2) = e.reserved := by
    rw [hreserved, bigEndian_toBigEndian]
    exact Nat.mod_eq_of_lt e.reserved_lt
  simp only [fwCfgReadFile, fwCfgRead32_eq, fwCfgRead16_eq, fwCfgReadBytes_eq,
    FwCfg.item_skip, FwCfg.pos_skip, FwCfg.skip_skip, Nat.reduceAdd, hsize', hselect',
    hreserved']
  exact congrArg (fun bs => (FwCfgFile.mk e.size e.select e.reserved bs, d.skip 64)) hname

theorem FwCfgEntry.isNamed_iff :
    e.file.isNamed stack sp name = true ↔ e.fileName = name.bytes := by
  have hfield : (stack.write sp e.name).bytesAt sp fwCfgNameSize = e.name := by
    rw [← e.name_length]
    exact ByteMemory.holds_write
  have hzero : 0 ∈ (stack.write sp e.name).bytesAt sp fwCfgNameSize :=
    hfield.symm ▸ e.terminated
  rw [FwCfgFile.isNamed, ByteMemory.strEq_iff]
  refine (ByteMemory.holds_terminated_iff name.nonzero hzero).trans ?_
  rw [ByteMemory.stringAt, hfield, FwCfgEntry.fileName]

/-- The entry that is found. -/
def fwCfgLookup (name : CString) (entries : List FwCfgEntry) : Option FwCfgEntry :=
  entries.find? fun e => e.fileName = name.bytes

/-- How many entries are read: up to the one that is found, or all of them. -/
def fwCfgScanned (name : CString) (entries : List FwCfgEntry) : ℕ :=
  min (entries.findIdx (fun e => e.fileName = name.bytes) + 1) entries.length

theorem fwCfgFindLoop_entries (stack : ByteMemory) (sp : ℕ) (name : CString)
    (h : d.item.Holds d.pos (entries.flatMap FwCfgEntry.bytes)) :
    fwCfgFindLoop stack sp name entries.length d =
      ⟨(entries.take (fwCfgScanned name entries)).map FwCfgEntry.file,
        (fwCfgLookup name entries).map FwCfgEntry.file,
        d.skip (64 * fwCfgScanned name entries)⟩ := by
  induction entries generalizing d with
  | nil => rfl
  | cons e entries ih =>
      rw [List.flatMap_cons, ByteMemory.holds_append, e.length_bytes] at h
      rw [List.length_cons, fwCfgFindLoop, fwCfgReadFile_entry h.1]
      dsimp only
      by_cases hname : e.fileName = name.bytes
      · have hscanned : fwCfgScanned name (e :: entries) = 1 := by
          simp [fwCfgScanned, List.findIdx_cons, hname]
        rw [if_pos (FwCfgEntry.isNamed_iff.mpr hname), hscanned, fwCfgLookup,
          List.find?_cons_of_pos (by simpa using hname)]
        rfl
      · have hscanned : fwCfgScanned name (e :: entries) =
            fwCfgScanned name entries + 1 := by
          simp [fwCfgScanned, List.findIdx_cons, hname]
        rw [if_neg (fun hnamed => hname (FwCfgEntry.isNamed_iff.mp hnamed)), hscanned,
          fwCfgLookup, List.find?_cons_of_neg (by simpa using hname), ih h.2,
          FwCfg.skip_skip, Nat.mul_add_one, Nat.add_comm 64]
        rfl

/-- What the search does with the directory that the device delivers. -/
structure FwCfgFinds (name : CString) (entries : List FwCfgEntry)
    (search : FwCfgSearch) : Prop where
  isSome_iff : search.found.isSome ↔ ∃ e ∈ entries, e.fileName = name.bytes
  found : search.found = (fwCfgLookup name entries).map FwCfgEntry.file
  /-- What was read are the entries, with their fields. -/
  files : search.files =
    (entries.take (fwCfgScanned name entries)).map FwCfgEntry.file
  pos : search.dev.pos = 4 + 64 * fwCfgScanned name entries

theorem fwCfgLookup_isSome :
    (fwCfgLookup name entries).isSome ↔ ∃ e ∈ entries, e.fileName = name.bytes := by
  simp [fwCfgLookup, List.find?_isSome]

theorem fwCfgFindFile_finds (stack : ByteMemory) (sp : ℕ) (name : CString)
    (hcount : entries.length < 2 ^ 32)
    (h : (fwCfgSelect fwCfgFileDir d).item.Holds 0 (fwCfgDirectory entries)) :
    FwCfgFinds name entries (fwCfgFindFile stack sp name d) := by
  rw [fwCfgDirectory, ByteMemory.holds_append, length_toBigEndian] at h
  obtain ⟨hlength, hentries⟩ := h
  rw [ByteMemory.Holds, length_toBigEndian] at hlength
  have hread : fwCfgRead32 (fwCfgSelect fwCfgFileDir d) =
      (entries.length, (fwCfgSelect fwCfgFileDir d).skip 4) := by
    rw [fwCfgRead32_eq]
    refine Prod.ext ((congrArg bigEndian hlength).trans ?_) rfl
    rw [bigEndian_toBigEndian]
    exact Nat.mod_eq_of_lt hcount
  have hloop := fwCfgFindLoop_entries stack sp name
    (d := (fwCfgSelect fwCfgFileDir d).skip 4) hentries
  simp only [fwCfgFindFile, hread, hloop]
  exact ⟨by rw [Option.isSome_map, fwCfgLookup_isSome], rfl, rfl, rfl⟩

/-- `etc/ramfb`. -/
def ramfbName : CString := ⟨[101, 116, 99, 47, 114, 97, 109, 102, 98], by decide⟩

/-- `etc/e820` stands in front of `etc/ramfb`. -/
def ramfbDirectory : List FwCfgEntry :=
  [⟨20, 0x20, 0, [101, 116, 99, 47, 101, 56, 50, 48] ++ List.replicate 48 0, by decide,
      by decide, by decide, by decide, by decide⟩,
    ⟨28, 0x21, 0, ramfbName.bytes ++ List.replicate 47 0, by decide, by decide, by decide,
      by decide, by decide⟩]

theorem fwCfgFindFile_finds_ramfb :
    FwCfgFinds ramfbName ramfbDirectory (fwCfgFindFile (fun _ => 0) 0x1000 ramfbName
      ⟨fun _ => ByteMemory.write (fun _ => 0) 0 (fwCfgDirectory ramfbDirectory), 0,
        0⟩) := by
  have hdirectory : ByteMemory.Holds (ByteMemory.write (fun _ => 0) 0
      (fwCfgDirectory ramfbDirectory)) 0 (fwCfgDirectory ramfbDirectory) :=
    ByteMemory.holds_write
  exact fwCfgFindFile_finds _ _ _ (by decide) hdirectory

end Search

end PongoOS
