import PongoOS.Support.MachO
import PongoOS.Support.Overlay
import PongoOS.Support.Outcome

/-!
# The tool `vmacho`

`vmacho` lays the segments of a Mach-O file out as they are in memory.  A first
pass over the load commands finds the range of addresses, and a second one
copies what each command maps.  Both ask `get_mapped_segment_range` what that
is.
-/

namespace PongoOS

open MachO

/-- Why the tool gave up: a line on standard error. -/
inductive VmachoError where
  | log (format : String) (args : List ℕ)
  | outOfFuel
deriving DecidableEq, Repr

/-- What `get_mapped_segment_range` finds. -/
structure MappedRange where
  addr : ℕ
  off : ℕ
  size : ℕ
deriving DecidableEq, Repr

/-- The body of the loop over sections, which has found `range` so far. -/
def scanSection (seg : Segment) (range : ℕ × ℕ) (sec : Section) :
    Except ℕ (ℕ × ℕ) :=
  if sec.flags % 0x100 = secTypeZerofill then pure range
  else
    let lo := sec.addr
    let hi := (lo + sec.size) % seg.wordSize
    if hi < lo ∨ lo < seg.vmaddr ∨
        (seg.vmaddr + seg.filesize) % seg.wordSize < hi then .error 2
    else pure (widen range (lo, hi))

/-- The two branches of `get_mapped_segment_range`, for a segment of either word
size. -/
def segmentRange (useSections : Bool) (seg : Segment) :
    Except ℕ MappedRange :=
  if useSections then do
    let (lowest, highest) ←
      seg.sections.foldlM (scanSection seg) (2 ^ 64 - 1, 0)
    if highest < lowest then pure ⟨seg.vmaddr, 0, 0⟩
    else pure ⟨lowest, (seg.fileoff + sub64 lowest seg.vmaddr) % 2 ^ 64,
      sub64 highest lowest⟩
  else pure ⟨seg.vmaddr, seg.fileoff,
    sub64 ((seg.vmaddr + seg.filesize) % seg.wordSize) seg.vmaddr⟩

/-- An error is what is returned instead of 0. -/
def getMappedSegmentRange (file : ByteMemory) (useSections : Bool) (cmd : ℕ) :
    Except ℕ MappedRange :=
  match segmentAt file cmd with
  | some seg => segmentRange useSections seg
  | none => .error 1

/-- `for(cmd = …; cmd < stop; cmd += cmd->cmdsize) body(cmd)`. -/
def forCommands {σ : Type} (file : ByteMemory) (stop : ℕ)
    (body : σ → ℕ → Except VmachoError σ) :
    ℕ → ℕ → σ → Except VmachoError σ
  | 0, _, _ => .error .outOfFuel
  | fuel + 1, cmd, s =>
      if stop ≤ cmd then pure s
      else do
        let s ← body s cmd
        forCommands file stop body fuel (cmd + cmdSize file cmd) s

/-- The body of the first loop. -/
def rangeCommand (file : ByteMemory) (flen : ℕ) (useSections : Bool)
    (stop : ℕ) (range : ℕ × ℕ) (cmd : ℕ) : Except VmachoError (ℕ × ℕ) :=
  if stop < cmd + 8 ∨ stop < cmd + cmdSize file cmd then
    .error (.log "Bad LC: 0x%llx" [cmd])
  else
    match getMappedSegmentRange file useSections cmd with
    | .error 1 => pure range
    | .error r =>
        .error (.log "get_mapped_segment_range returned error: %d" [r])
    | .ok ⟨vmaddr, fileoff, size⟩ =>
        if size = 0 then pure range
        else
          let off := (fileoff + size) % 2 ^ 64
          if flen < off ∨ off < fileoff then
            .error (.log "Bad segment: 0x%llx" [cmd])
          else pure (widen range (vmaddr, (vmaddr + size) % 2 ^ 64))

/-- The body of the second loop. -/
def copyCommand (file : ByteMemory) (useSections : Bool) (lowest : ℕ)
    (mem : ByteMemory) (cmd : ℕ) : Except VmachoError ByteMemory :=
  match getMappedSegmentRange file useSections cmd with
  | .error 1 => pure mem
  | .error r =>
      .error (.log "get_mapped_segment_range returned error: %d" [r])
  | .ok ⟨vmaddr, fileoff, size⟩ =>
      if size = 0 then pure mem
      else pure (mem.write (sub64 vmaddr lowest) (file.bytesAt fileoff size))

/-- `sizeof(*hdr)`. -/
def headerSize (file : ByteMemory) : ℕ :=
  if file.u32 0 = magic32 then 28 else 32

def sizeofcmds (file : ByteMemory) : ℕ := file.u32 20

/-- Where the load commands end. -/
def commandsEnd (file : ByteMemory) : ℕ := headerSize file + sizeofcmds file

/-- `main`, from when the file of `flen` bytes is open to when the output is
written.  `malloc` says which allocations succeed, and what lies behind the file
in memory is not known. -/
def vmacho (malloc : ℕ → Bool) (fuel : ℕ) (useSections : Bool)
    (file : ByteMemory) (flen : ℕ) : Except VmachoError (List UInt8) :=
  if flen < 4 then .error (.log "File too short for magic." [])
  else if ¬ malloc flen then .error (.log "malloc(file)" [])
  else if file.u32 0 ≠ magic32 ∧ file.u32 0 ≠ magic64 then
    .error (.log "Bad magic: %08llx" [file.u32 0])
  else if flen < commandsEnd file then
    .error (.log "File too short for load commands." [])
  else do
    let lcs := headerSize file
    let stop := commandsEnd file
    let (lowest, highest) ← forCommands file stop
      (rangeCommand file flen useSections stop) fuel lcs (2 ^ 64 - 1, 0)
    if highest < lowest then
      .error (.log "Bad memory layout, lowest: 0x%llx, highest: 0x%llx"
        [lowest, highest])
    else
      let mlen := highest - lowest
      if ¬ malloc mlen then .error (.log "malloc" [])
      else do
        let mem ← forCommands file stop
          (copyCommand file useSections lowest) fuel lcs fun _ => 0
        pure (mem.bytesAt 0 mlen)

/-! ## What the commands map -/

namespace MachO.Segment

/-- With sections a segment covers what lies between the start of one and the
end of another section with contents, and without them what is in the file. -/
def Covers (useSections : Bool) (seg : Segment) (a : ℕ) : Prop :=
  if useSections then
    (∃ s ∈ seg.mappedSections, s.addr ≤ a) ∧
      ∃ s ∈ seg.mappedSections, a < s.addr + s.size
  else seg.vmaddr ≤ a ∧ a < seg.vmaddr + seg.filesize

instance (useSections : Bool) (seg : Segment) (a : ℕ) :
    Decidable (seg.Covers useSections a) :=
  inferInstanceAs (Decidable (ite _ _ _))

/-- The byte of the file that is mapped to `a`. -/
def byteAt (file : ByteMemory) (seg : Segment) (a : ℕ) : UInt8 :=
  file (seg.fileoff + (a - seg.vmaddr))

/-- Neither the addresses nor the part of the file wrap. -/
def Bounded (seg : Segment) : Prop :=
  seg.vmaddr + seg.filesize < seg.wordSize ∧
    seg.fileoff + seg.filesize < 2 ^ 64

instance (seg : Segment) : Decidable seg.Bounded :=
  inferInstanceAs (Decidable (_ ∧ _))

end MachO.Segment

/-- The last of the segments that cover `a`. -/
def lastCovering (useSections : Bool) (segs : List Segment) (a : ℕ) :
    Option Segment :=
  lastWhere (fun seg => seg.Covers useSections a) segs

/-- The byte of the image at `a`. -/
def imageByte (file : ByteMemory) (useSections : Bool) (segs : List Segment)
    (a : ℕ) : UInt8 :=
  (lastCovering useSections segs a).elim 0 fun seg => seg.byteAt file a

end PongoOS
