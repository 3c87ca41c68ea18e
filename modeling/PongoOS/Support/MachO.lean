import PongoOS.Support.ByteMemory

/-!
# Mach-O load commands

The segment commands of a Mach-O file come in two layouts, for words of 32 and
of 64 bits.  Both name the part of the file that is mapped, where it is mapped,
and the sections the segment is made of.
-/

namespace PongoOS

namespace ByteMemory

variable {m : ByteMemory} {a : ℕ}

/-- The `uint32_t` at `a`. -/
def u32 (m : ByteMemory) (a : ℕ) : ℕ := littleEndian (m.bytesAt a 4)

/-- The `uint64_t` at `a`. -/
def u64 (m : ByteMemory) (a : ℕ) : ℕ := littleEndian (m.bytesAt a 8)

theorem littleEndian_bytesAt_lt {n : ℕ} :
    littleEndian (m.bytesAt a n) < 256 ^ n := by
  have hlt := littleEndian_lt (m.bytesAt a n)
  rwa [length_bytesAt] at hlt

theorem u32_lt : m.u32 a < 2 ^ 32 := littleEndian_bytesAt_lt

end ByteMemory

namespace MachO

def magic32 : ℕ := 0xfeedface

def magic64 : ℕ := 0xfeedfacf

def lcSegment : ℕ := 0x1

def lcSegment64 : ℕ := 0x19

def secTypeZerofill : ℕ := 0x1

/-- Where the fields are in a segment command and in a section. -/
structure Layout where
  /-- the bytes of a word -/
  word : ℕ
  vmaddr : ℕ
  vmsize : ℕ
  fileoff : ℕ
  filesize : ℕ
  initprot : ℕ
  nsects : ℕ
  sizeofSegment : ℕ
  sectionAddr : ℕ
  sectionSize : ℕ
  sectionFlags : ℕ
  sizeofSection : ℕ

/-- `segment_command` and `section`. -/
def layout32 : Layout where
  word := 4
  vmaddr := 24
  vmsize := 28
  fileoff := 32
  filesize := 36
  initprot := 44
  nsects := 48
  sizeofSegment := 56
  sectionAddr := 32
  sectionSize := 36
  sectionFlags := 56
  sizeofSection := 68

/-- `segment_command_64` and `section_64`. -/
def layout64 : Layout where
  word := 8
  vmaddr := 24
  vmsize := 32
  fileoff := 40
  filesize := 48
  initprot := 60
  nsects := 64
  sizeofSegment := 72
  sectionAddr := 32
  sectionSize := 40
  sectionFlags := 64
  sizeofSection := 80

structure Section where
  addr : ℕ
  size : ℕ
  flags : ℕ
deriving DecidableEq, Repr

/-- `wordSize` is the number of values of a word. -/
structure Segment where
  wordSize : ℕ
  vmaddr : ℕ
  vmsize : ℕ
  fileoff : ℕ
  filesize : ℕ
  initprot : ℕ
  sections : List Section
deriving DecidableEq, Repr

namespace Layout

def readWord (L : Layout) (m : ByteMemory) (a : ℕ) : ℕ :=
  littleEndian (m.bytesAt a L.word)

def readSection (L : Layout) (m : ByteMemory) (sec : ℕ) : Section where
  addr := L.readWord m (sec + L.sectionAddr)
  size := L.readWord m (sec + L.sectionSize)
  flags := m.u32 (sec + L.sectionFlags)

def readSegment (L : Layout) (m : ByteMemory) (cmd : ℕ) : Segment where
  wordSize := 256 ^ L.word
  vmaddr := L.readWord m (cmd + L.vmaddr)
  vmsize := L.readWord m (cmd + L.vmsize)
  fileoff := L.readWord m (cmd + L.fileoff)
  filesize := L.readWord m (cmd + L.filesize)
  initprot := m.u32 (cmd + L.initprot)
  sections := (List.range (m.u32 (cmd + L.nsects))).map fun i =>
    L.readSection m (cmd + L.sizeofSegment + i * L.sizeofSection)

end Layout

/-- The segment that a load command describes, if it does. -/
def segmentAt (m : ByteMemory) (cmd : ℕ) : Option Segment :=
  if m.u32 cmd = lcSegment then some (layout32.readSegment m cmd)
  else if m.u32 cmd = lcSegment64 then some (layout64.readSegment m cmd)
  else none

/-- `cmdsize`. -/
def cmdSize (m : ByteMemory) (cmd : ℕ) : ℕ := m.u32 (cmd + 4)

/-- The `n` load commands from `cmd` on. -/
def loadCommands (m : ByteMemory) : ℕ → ℕ → List ℕ
  | 0, _ => []
  | n + 1, cmd => cmd :: loadCommands m n (cmd + cmdSize m cmd)

/-- Where the `n` load commands from `cmd` on end. -/
def commandsEnd (m : ByteMemory) : ℕ → ℕ → ℕ
  | 0, cmd => cmd
  | n + 1, cmd => commandsEnd m n (cmd + cmdSize m cmd)

theorem le_commandsEnd {m : ByteMemory} {n cmd : ℕ} :
    cmd ≤ commandsEnd m n cmd := by
  induction n generalizing cmd with
  | zero => exact Nat.le_refl _
  | succ n ih => exact Nat.le_trans (Nat.le_add_right _ _) ih

theorem command_end_le {m : ByteMemory} {n cmd lc : ℕ}
    (h : lc ∈ loadCommands m n cmd) :
    lc + cmdSize m lc ≤ commandsEnd m n cmd := by
  induction n generalizing cmd with
  | zero => cases h
  | succ n ih =>
      rcases List.mem_cons.mp h with rfl | h
      · exact le_commandsEnd
      · exact ih h

/-- The load commands from `cmd` up to `stop`. -/
inductive Commands (m : ByteMemory) (stop : ℕ) : ℕ → List ℕ → Prop where
  | nil {cmd : ℕ} (h : stop ≤ cmd) : Commands m stop cmd []
  | cons {cmd : ℕ} {cmds : List ℕ} (h : cmd < stop)
      (hrest : Commands m stop (cmd + cmdSize m cmd) cmds) :
      Commands m stop cmd (cmd :: cmds)

namespace Segment

variable {seg : Segment} {a : ℕ}

/-- The section has contents in the file. -/
def IsMapped (s : Section) : Prop := s.flags % 0x100 ≠ secTypeZerofill

instance (s : Section) : Decidable (IsMapped s) :=
  inferInstanceAs (Decidable (_ ≠ _))

def mappedSections (seg : Segment) : List Section :=
  seg.sections.filter fun s => IsMapped s

/-- What holds of the fields of a segment that was read. -/
structure InWord (seg : Segment) : Prop where
  wordSize_le : seg.wordSize ≤ 2 ^ 64
  vmaddr_lt : seg.vmaddr < seg.wordSize
  fileoff_lt : seg.fileoff < seg.wordSize
  filesize_lt : seg.filesize < seg.wordSize
  sections_lt : ∀ s ∈ seg.sections, s.addr < seg.wordSize ∧ s.size < seg.wordSize

end Segment

theorem Layout.inWord_readSegment {L : Layout} {m : ByteMemory} {cmd : ℕ}
    (hword : L.word ≤ 8) : (L.readSegment m cmd).InWord := by
  constructor
  · exact Nat.pow_le_pow_right (by decide) hword
  · exact ByteMemory.littleEndian_bytesAt_lt
  · exact ByteMemory.littleEndian_bytesAt_lt
  · exact ByteMemory.littleEndian_bytesAt_lt
  · intro s hs
    obtain ⟨i, -, rfl⟩ := List.mem_map.mp hs
    exact ⟨ByteMemory.littleEndian_bytesAt_lt, ByteMemory.littleEndian_bytesAt_lt⟩

theorem inWord_of_segmentAt {m : ByteMemory} {cmd : ℕ} {seg : Segment}
    (h : segmentAt m cmd = some seg) : seg.InWord := by
  unfold segmentAt at h
  split at h
  · cases h
    exact Layout.inWord_readSegment (by decide)
  · split at h
    · cases h
      exact Layout.inWord_readSegment (by decide)
    · cases h

end MachO

end PongoOS
