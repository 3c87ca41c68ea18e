import PongoOS.Support.Trace
import PongoOS.Tools.VmachoLoops

/-!
# What `vmacho` touches

A load command is checked before the loops use it, and what is copied is checked
against the file.  The header of a segment and those of its sections are read
wherever the command lies, and without sections an address range may wrap
around, which leaves the allocation too small for it.
-/

namespace PongoOS

open MachO

/-! ## Accesses -/

/-- The file is read, or a part of it is copied to an allocation of `room`
bytes. -/
inductive VmachoAccess where
  | read (off len : ℕ)
  | copy (room dst src len : ℕ)
deriving DecidableEq, Repr

/-- The access is to the `flen` bytes of the file and to the allocation. -/
def VmachoAccess.InBounds (flen : ℕ) : VmachoAccess → Prop
  | .read off len => off + len ≤ flen
  | .copy room dst src len => src + len ≤ flen ∧ dst + len ≤ room

/-- How the segment command at `cmd` is laid out, if it is one. -/
def layoutAt (file : ByteMemory) (cmd : ℕ) : Option Layout :=
  if file.u32 cmd = lcSegment then some layout32
  else if file.u32 cmd = lcSegment64 then some layout64
  else none

/-- Where the section with index `i` is. -/
def sectionAt (L : Layout) (cmd i : ℕ) : ℕ :=
  cmd + L.sizeofSegment + i * L.sizeofSection

section Accesses

variable (file : ByteMemory) (flen : ℕ) (useSections : Bool)

/-- The body of the loop over sections. -/
def sectionReads (L : Layout) (cmd i : ℕ) : List VmachoAccess :=
  let sec := sectionAt L cmd i
  .read (sec + L.sectionFlags) 4 ::
    if (L.readSection file sec).flags % 0x100 = secTypeZerofill then []
    else [.read (sec + L.sectionAddr) L.word, .read (sec + L.sectionSize) L.word]

/-- A branch of `get_mapped_segment_range`. -/
def segmentReads (L : Layout) (cmd : ℕ) : List VmachoAccess :=
  [.read (cmd + L.vmaddr) L.word, .read (cmd + L.fileoff) L.word,
    .read (cmd + L.filesize) L.word] ++
    if useSections then
      .read (cmd + L.nsects) 4 ::
        foldTrace (fun _ => sectionReads file L cmd)
          (fun range i => scanSection (L.readSegment file cmd) range
            (L.readSection file (sectionAt L cmd i)))
          (2 ^ 64 - 1, 0) (List.range (file.u32 (cmd + L.nsects)))
    else []

/-- `get_mapped_segment_range`. -/
def commandReads (cmd : ℕ) : List VmachoAccess :=
  .read cmd 4 ::
    match layoutAt file cmd with
    | some L => segmentReads file useSections L cmd
    | none => []

/-- The body of the first loop. -/
def rangeAccesses (stop cmd : ℕ) : List VmachoAccess :=
  if stop < cmd + 8 then []
  else
    .read (cmd + 4) 4 ::
      if stop < cmd + cmdSize file cmd then []
      else commandReads file useSections cmd

/-- The body of the second loop. -/
def copyAccesses (room lowest cmd : ℕ) : List VmachoAccess :=
  commandReads file useSections cmd ++
    match getMappedSegmentRange file useSections cmd with
    | .ok ⟨vmaddr, fileoff, size⟩ =>
        if size = 0 then [] else [.copy room (sub64 vmaddr lowest) fileoff size]
    | .error _ => []

/-- A loop over load commands, which reads `cmdsize` to go on. -/
def forCommandsTrace {σ : Type} (stop : ℕ) (act : ℕ → List VmachoAccess)
    (body : σ → ℕ → Except VmachoError σ) : ℕ → ℕ → σ → List VmachoAccess
  | 0, _, _ => []
  | fuel + 1, cmd, s =>
      if stop ≤ cmd then []
      else
        act cmd ++ afterOk (body s cmd) fun s =>
          .read (cmd + 4) 4 ::
            forCommandsTrace stop act body fuel (cmd + cmdSize file cmd) s

/-- What `main` reads of the load commands and copies, in a run of `vmacho`. -/
def vmachoAccesses (malloc : ℕ → Bool) (fuel : ℕ) : List VmachoAccess :=
  if flen < 4 then []
  else if ¬ malloc flen then []
  else if file.u32 0 ≠ magic32 ∧ file.u32 0 ≠ magic64 then []
  else if flen < commandsEnd file then []
  else
    let lcs := headerSize file
    let stop := commandsEnd file
    forCommandsTrace file stop (rangeAccesses file useSections stop)
        (rangeCommand file flen useSections stop) fuel lcs (2 ^ 64 - 1, 0) ++
      afterOk (forCommands file stop (rangeCommand file flen useSections stop)
        fuel lcs (2 ^ 64 - 1, 0)) fun (lowest, highest) =>
          if highest < lowest then []
          else if ¬ malloc (highest - lowest) then []
          else
            forCommandsTrace file stop
              (copyAccesses file useSections (highest - lowest) lowest)
              (copyCommand file useSections lowest) fuel lcs fun _ => 0

/-- Nothing outside the file and the allocation is touched, whichever
allocations succeed and however long the loops run. -/
def VmachoInBounds : Prop :=
  ∀ malloc fuel, ∀ x ∈ vmachoAccesses file flen useSections malloc fuel,
    x.InBounds flen

/-! ## Files that are safe -/

/-- The scan goes on behind the section. -/
def SectionPasses (seg : Segment) (s : Section) : Prop :=
  Segment.IsMapped s →
    s.addr ≤ (s.addr + s.size) % seg.wordSize ∧ seg.vmaddr ≤ s.addr ∧
      (s.addr + s.size) % seg.wordSize ≤
        (seg.vmaddr + seg.filesize) % seg.wordSize

/-- The file goes on up to the last field that is read of a segment, and up to
the flags of every section that the scan comes to. -/
def HeaderFits (cmd : ℕ) : Prop :=
  ∀ L, layoutAt file cmd = some L →
    cmd + L.filesize + L.word ≤ flen ∧
      (useSections = true → cmd + L.nsects + 4 ≤ flen ∧
        ∀ i < file.u32 (cmd + L.nsects),
          (∀ j < i, SectionPasses (L.readSegment file cmd)
            (L.readSection file (sectionAt L cmd j))) →
          sectionAt L cmd i + L.sectionFlags + 4 ≤ flen)

/-- No segment wraps around, or the layout is a bad one: each segment that maps
something ends, after it wrapped around, below all of them. -/
def SegmentsFit (segs : List Segment) : Prop :=
  (∀ seg ∈ segs, seg.vmaddr + seg.filesize < 2 ^ 64) ∨
    ∀ seg ∈ segs, ∀ seg' ∈ segs, seg.filesize ≠ 0 → seg'.filesize ≠ 0 →
      (seg.vmaddr + seg.filesize) % 2 ^ 64 < seg'.vmaddr

/-- The headers of the commands that the first loop comes to are in the file.
Where sections are left out and it comes to the end, the segments fit. -/
structure CommandsFit : Prop where
  headers : ∀ c, RangeReached file flen useSections c →
    c + 8 ≤ commandsEnd file → c + cmdSize file c ≤ commandsEnd file →
    HeaderFits file flen useSections c
  segments : useSections = false → ∀ cs,
    Commands file (commandsEnd file) (headerSize file) cs →
    (∀ c ∈ cs, RangeAccepts file flen false c) →
    SegmentsFit (segments file cs)

end Accesses

/-! ## Headers -/

section Headers

variable {file : ByteMemory} {flen cmd c : ℕ} {useSections : Bool} {L : Layout}

theorem layoutAt_cases (h : layoutAt file cmd = some L) :
    L = layout32 ∨ L = layout64 := by
  unfold layoutAt at h
  split at h
  · cases h
    exact .inl rfl
  · split at h
    · cases h
      exact .inr rfl
    · cases h

theorem segmentAt_eq_layoutAt : segmentAt file cmd =
    (layoutAt file cmd).map fun L => L.readSegment file cmd := by
  unfold segmentAt layoutAt
  split
  · rfl
  · split <;> rfl

theorem scanSection_ok_iff {seg : Segment} {s : Section} (range : ℕ × ℕ) :
    (∃ range', scanSection seg range s = .ok range') ↔ SectionPasses seg s := by
  unfold scanSection SectionPasses Segment.IsMapped
  by_cases hzerofill : s.flags % 0x100 = secTypeZerofill
  · rw [if_pos hzerofill]
    exact iff_of_true ⟨_, rfl⟩ fun h => absurd hzerofill h
  · rw [if_neg hzerofill]
    simp only
    split
    · rename_i hbad
      refine iff_of_false (fun ⟨_, h⟩ => by cases h) fun h => ?_
      have hpasses := h hzerofill
      omega
    · rename_i hgood
      push Not at hgood
      exact iff_of_true ⟨_, rfl⟩ fun _ => hgood

theorem sectionReads_inBounds_iff (hL : L = layout32 ∨ L = layout64) (i : ℕ) :
    (∀ x ∈ sectionReads file L cmd i, x.InBounds flen) ↔
      sectionAt L cmd i + L.sectionFlags + 4 ≤ flen := by
  constructor
  · exact fun h => h _ List.mem_cons_self
  · intro h x hx
    rcases List.mem_cons.mp hx with rfl | hx
    · exact h
    · split at hx
      · cases hx
      · simp only [List.mem_cons, List.not_mem_nil, or_false] at hx
        rcases hL with rfl | rfl <;> rcases hx with rfl | rfl <;>
          · simp only [layout32, layout64] at h ⊢
            dsimp only [VmachoAccess.InBounds]
            omega

theorem mem_sectionLoop_iff {x : VmachoAccess} {n : ℕ} {range : ℕ × ℕ} :
    x ∈ foldTrace (fun _ => sectionReads file L cmd)
        (fun range i => scanSection (L.readSegment file cmd) range
          (L.readSection file (sectionAt L cmd i))) range (List.range n) ↔
      ∃ i < n, (∀ j < i, SectionPasses (L.readSegment file cmd)
        (L.readSection file (sectionAt L cmd j))) ∧
          x ∈ sectionReads file L cmd i :=
  mem_foldTrace_range_iff fun range _ => scanSection_ok_iff range

theorem segmentReads_inBounds_iff (hL : L = layout32 ∨ L = layout64) :
    (∀ x ∈ segmentReads file useSections L cmd, x.InBounds flen) ↔
      cmd + L.filesize + L.word ≤ flen ∧
        (useSections = true → cmd + L.nsects + 4 ≤ flen ∧
          ∀ i < file.u32 (cmd + L.nsects),
            (∀ j < i, SectionPasses (L.readSegment file cmd)
              (L.readSection file (sectionAt L cmd j))) →
            sectionAt L cmd i + L.sectionFlags + 4 ≤ flen) := by
  have hfields : cmd + L.filesize + L.word ≤ flen →
      ∀ x ∈ [VmachoAccess.read (cmd + L.vmaddr) L.word,
        .read (cmd + L.fileoff) L.word, .read (cmd + L.filesize) L.word],
        x.InBounds flen := by
    intro h x hx
    simp only [List.mem_cons, List.not_mem_nil, or_false] at hx
    rcases hL with rfl | rfl <;> rcases hx with rfl | rfl | rfl <;>
      · simp only [layout32, layout64] at h ⊢
        dsimp only [VmachoAccess.InBounds]
        omega
  unfold segmentReads
  constructor
  · intro h
    refine ⟨h (.read (cmd + L.filesize) L.word) (by simp), fun hsections => ?_⟩
    rw [if_pos hsections] at h
    refine ⟨h (.read (cmd + L.nsects) 4) (by simp), fun i hi hbefore => ?_⟩
    refine (sectionReads_inBounds_iff hL i).mp
      fun x (hx : x ∈ sectionReads file L cmd i) => h x ?_
    refine List.mem_append_right _ (List.mem_cons_of_mem _ ?_)
    exact mem_sectionLoop_iff.mpr ⟨i, hi, hbefore, hx⟩
  · rintro ⟨hsegment, hsections⟩ x hx
    rcases List.mem_append.mp hx with hx | hx
    · exact hfields hsegment x hx
    · cases useSections with
      | false => cases hx
      | true =>
          obtain ⟨hnsects, hloop⟩ := hsections rfl
          rcases List.mem_cons.mp hx with rfl | hx
          · exact hnsects
          · obtain ⟨i, hi, hbefore, hx⟩ := mem_sectionLoop_iff.mp hx
            exact (sectionReads_inBounds_iff hL i).mpr (hloop i hi hbefore) x hx

/-- `get_mapped_segment_range` reads in the file exactly if the headers fit. -/
theorem commandReads_inBounds_iff (hcmd : cmd + 4 ≤ flen) :
    (∀ x ∈ commandReads file useSections cmd, x.InBounds flen) ↔
      HeaderFits file flen useSections cmd := by
  rw [commandReads, List.forall_mem_cons, HeaderFits]
  split
  · rename_i L hL
    rw [segmentReads_inBounds_iff (layoutAt_cases hL), hL]
    constructor
    · rintro ⟨-, h⟩ L' hL'
      cases hL'
      exact h
    · exact fun h => ⟨hcmd, h L rfl⟩
  · rename_i hL
    rw [hL]
    exact iff_of_true ⟨hcmd, fun x hx => absurd hx List.not_mem_nil⟩ nofun

end Headers

/-! ## Loops -/

section Loop

variable {file : ByteMemory} {stop cmd c fuel : ℕ} {accepts : ℕ → Prop}
  {act : ℕ → List VmachoAccess} {σ : Type}
  {body : σ → ℕ → Except VmachoError σ} {s : σ} {x : VmachoAccess}

/-- What a loop does is done at a command that it comes to. -/
theorem reached_of_mem_trace (hbody : ∀ s d s', body s d = .ok s' → accepts d)
    (hx : x ∈ forCommandsTrace file stop act body fuel cmd s) :
    ∃ c, Reached file stop accepts cmd c ∧
      (x ∈ act c ∨ accepts c ∧ x = .read (c + 4) 4) := by
  induction fuel generalizing cmd s with
  | zero => cases hx
  | succ fuel ih =>
      rw [forCommandsTrace] at hx
      split at hx
      · cases hx
      · rename_i hstop
        have hlt := Nat.lt_of_not_le hstop
        rcases List.mem_append.mp hx with hx | hx
        · exact ⟨cmd, .here hlt, .inl hx⟩
        · obtain ⟨s', hok, hx⟩ := mem_afterOk.mp hx
          have haccepts := hbody s cmd s' hok
          rcases List.mem_cons.mp hx with rfl | hx
          · exact ⟨cmd, .here hlt, .inr ⟨haccepts, rfl⟩⟩
          · obtain ⟨c, hreached, hc⟩ := ih hx
            exact ⟨c, .next hlt haccepts hreached, hc⟩

/-- A loop with enough fuel comes to every command there is to come to. -/
theorem Reached.mem_trace (h : Reached file stop accepts cmd c)
    (hbody : ∀ d, accepts d → ∀ s, ∃ s', body s d = .ok s') (hx : x ∈ act c) :
    ∃ bound, ∀ fuel, bound ≤ fuel → ∀ s,
      x ∈ forCommandsTrace file stop act body fuel cmd s := by
  induction h with
  | here hlt =>
      refine ⟨1, fun fuel hfuel s => ?_⟩
      obtain ⟨fuel, rfl⟩ := Nat.exists_eq_add_of_le' hfuel
      rw [forCommandsTrace, if_neg (Nat.not_le_of_lt hlt)]
      exact List.mem_append_left _ hx
  | next hlt haccepts _ ih =>
      obtain ⟨bound, hbound⟩ := ih hx
      refine ⟨bound + 1, fun fuel hfuel s => ?_⟩
      obtain ⟨fuel, rfl⟩ := Nat.exists_eq_add_of_le' (Nat.le_of_add_left_le hfuel)
      obtain ⟨s', hok⟩ := hbody _ haccepts s
      rw [forCommandsTrace, if_neg (Nat.not_le_of_lt hlt)]
      refine List.mem_append_right _ (mem_afterOk.mpr ⟨s', hok, ?_⟩)
      exact List.mem_cons_of_mem _ (hbound fuel (by omega) s')

end Loop

/-! ## Ranges -/

/-- The bounds by which the first loop widens its range. -/
def mappedBounds (file : ByteMemory) (useSections : Bool) (cmd : ℕ) :
    Option (ℕ × ℕ) :=
  match getMappedSegmentRange file useSections cmd with
  | .ok r => if r.size = 0 then none else some (r.addr, (r.addr + r.size) % 2 ^ 64)
  | .error _ => none

section Ranges

variable {file : ByteMemory} {flen fuel cmd c : ℕ} {useSections : Bool}
  {range : ℕ × ℕ} {cs : List ℕ} {seg : Segment} {r : MappedRange}

theorem mappedBounds_of_ok
    (hr : getMappedSegmentRange file useSections c = .ok r) (hsize : r.size ≠ 0) :
    mappedBounds file useSections c =
      some (r.addr, (r.addr + r.size) % 2 ^ 64) := by
  rw [mappedBounds, hr]
  exact if_neg hsize

theorem rangeCommand_eq (h : RangeAccepts file flen useSections c)
    (range : ℕ × ℕ) :
    rangeCommand file flen useSections (commandsEnd file) range c =
      .ok (extent range (mappedBounds file useSections c).toList) := by
  have hend : ¬ (commandsEnd file < c + 8 ∨
      commandsEnd file < c + cmdSize file c) := by
    have h8 := h.header_end
    have hsize := h.command_end
    omega
  have hmaps := h.maps
  rw [rangeCommand, if_neg hend, mappedBounds]
  split
  · rename_i heq
    rw [heq]
    rfl
  · rename_i e hne heq
    rw [heq] at hmaps
    exact absurd hmaps hne
  · rename_i vmaddr fileoff size heq
    rw [heq] at hmaps ⊢
    by_cases hsize : size = 0
    · simp only [if_pos hsize]
      rfl
    · have hgood := hmaps.resolve_left hsize
      dsimp only at hgood
      simp only [if_neg hsize]
      rw [if_neg (by omega)]
      rfl

/-- What the first loop finds, where it comes to the end. -/
theorem foldlM_rangeCommand (h : ∀ c ∈ cs, RangeAccepts file flen useSections c) :
    cs.foldlM (rangeCommand file flen useSections (commandsEnd file)) range =
      .ok (extent range (cs.filterMap (mappedBounds file useSections))) := by
  induction cs generalizing range with
  | nil => rfl
  | cons c cs ih =>
      rw [List.foldlM_cons, rangeCommand_eq (h c List.mem_cons_self),
        except_ok_bind, ih fun d hd => h d (List.mem_cons_of_mem _ hd)]
      cases hbounds : mappedBounds file useSections c with
      | none => rw [List.filterMap_cons_none hbounds]; rfl
      | some b => rw [List.filterMap_cons_some hbounds]; rfl

theorem rangeAccepts_of_foldlM {range' : ℕ × ℕ}
    (h : cs.foldlM (rangeCommand file flen useSections (commandsEnd file)) range =
      .ok range') (hc : c ∈ cs) : RangeAccepts file flen useSections c := by
  induction cs generalizing range with
  | nil => cases hc
  | cons d cs ih =>
      rw [List.foldlM_cons] at h
      obtain ⟨range₁, hfirst, hrest⟩ := except_bind_eq_ok.mp h
      rcases List.mem_cons.mp hc with rfl | hc
      · exact (rangeCommand_ok_iff range).mp ⟨range₁, hfirst⟩
      · exact ih hrest hc

/-- The scan of the sections keeps to words. -/
theorem segmentRange_sections_lt (hword : seg.InWord)
    (h : segmentRange true seg = .ok r) :
    r.addr + r.size < 2 ^ 64 := by
  have hsize := hword.wordSize_le
  have hvmaddr := hword.vmaddr_lt
  simp only [segmentRange, if_true, except_bind_eq_ok] at h
  obtain ⟨⟨lowest, highest⟩, hscan, h⟩ := h
  have hhighest : highest < 2 ^ 64 := by
    refine foldlM_keeps (I := fun range => range.2 < 2 ^ 64)
      (fun s _ range range' hrange hok => ?_) (by decide) hscan
    have hhi : (s.addr + s.size) % seg.wordSize < seg.wordSize :=
      Nat.mod_lt _ (by omega)
    unfold scanSection at hok
    split at hok
    · cases hok
      exact hrange
    · simp only at hok
      split at hok
      · cases hok
      · cases hok
        dsimp only [widen]
        split <;> omega
  split at h
  · cases h
    exact Nat.lt_of_lt_of_le hvmaddr hsize
  · rename_i hle
    have hle := Nat.le_of_not_lt hle
    rw [sub64_of_le hle hhighest] at h
    cases h
    dsimp only
    omega

/-- Without sections a segment that is accepted is mapped as it is. -/
theorem segmentRange_size (hflen : flen < 2 ^ 63)
    (hseg : segmentAt file c = some seg) (h : segmentRange false seg = .ok r)
    (hmaps : MapsWithin flen (.ok r)) :
    r.addr = seg.vmaddr ∧ r.size = seg.filesize := by
  have hword := inWord_of_segmentAt hseg
  have hvmaddr := hword.vmaddr_lt
  have hfileoff := hword.fileoff_lt
  have hfilesize := hword.filesize_lt
  have hcases : seg.wordSize = 2 ^ 32 ∨ seg.wordSize = 2 ^ 64 := by
    rw [segmentAt_eq_layoutAt] at hseg
    obtain ⟨L, hL, rfl⟩ := Option.map_eq_some_iff.mp hseg
    rcases layoutAt_cases hL with rfl | rfl
    · exact .inl rfl
    · exact .inr rfl
  cases h
  refine ⟨rfl, ?_⟩
  -- a 32-bit segment that wraps around would be larger than any file
  simp only [MapsWithin, sub64] at hmaps ⊢
  rcases hcases with heq | heq <;> rw [heq] at hvmaddr hfileoff hfilesize hmaps ⊢
  · have hmod : (seg.vmaddr + seg.filesize) % 2 ^ 32 = seg.vmaddr + seg.filesize ∨
        (seg.vmaddr + seg.filesize) % 2 ^ 32 + 2 ^ 32 =
          seg.vmaddr + seg.filesize := by
      omega
    omega
  · omega

theorem segmentRange_lt (hword : seg.InWord)
    (h : segmentRange useSections seg = .ok r) :
    r.addr < 2 ^ 64 ∧ r.off < 2 ^ 64 ∧ r.size < 2 ^ 64 := by
  have hsize := hword.wordSize_le
  have hvmaddr := hword.vmaddr_lt
  have hfileoff := hword.fileoff_lt
  cases useSections with
  | false =>
      cases h
      have hdiff : sub64 ((seg.vmaddr + seg.filesize) % seg.wordSize) seg.vmaddr <
          2 ^ 64 := by
        unfold sub64
        exact Nat.mod_lt _ (Nat.two_pow_pos 64)
      exact ⟨Nat.lt_of_lt_of_le hvmaddr hsize, Nat.lt_of_lt_of_le hfileoff hsize,
        hdiff⟩
  | true =>
      have hlt := segmentRange_sections_lt hword h
      simp only [segmentRange, if_true, except_bind_eq_ok] at h
      obtain ⟨⟨lowest, highest⟩, -, h⟩ := h
      split at h
      · cases h
        exact ⟨Nat.lt_of_lt_of_le hvmaddr hsize, Nat.two_pow_pos 64,
          Nat.two_pow_pos 64⟩
      · cases h
        dsimp only at hlt ⊢
        exact ⟨by omega, Nat.mod_lt _ (Nat.two_pow_pos 64), by omega⟩

theorem exists_segment_of_ok
    (h : getMappedSegmentRange file useSections c = .ok r) :
    ∃ seg, segmentAt file c = some seg ∧ segmentRange useSections seg = .ok r := by
  unfold getMappedSegmentRange at h
  split at h
  · rename_i seg hseg
    exact ⟨seg, hseg, h⟩
  · cases h

/-- The part of the file is in the file, and the addresses are in the allocation
exactly if they do not wrap around. -/
theorem copy_inBounds_iff {lowest highest : ℕ}
    (haccepts : RangeAccepts file flen useSections c)
    (hr : getMappedSegmentRange file useSections c = .ok r) (hsize : r.size ≠ 0)
    (hlowest : lowest ≤ r.addr) (hhighest : (r.addr + r.size) % 2 ^ 64 ≤ highest)
    (hlt : highest < 2 ^ 64) (hle : lowest ≤ highest) :
    (VmachoAccess.copy (highest - lowest) (sub64 r.addr lowest) r.off
      r.size).InBounds flen ↔ r.addr + r.size < 2 ^ 64 := by
  obtain ⟨seg, hseg, hrange⟩ := exists_segment_of_ok hr
  obtain ⟨haddr, hoff, hsize'⟩ :=
    segmentRange_lt (inWord_of_segmentAt hseg) hrange
  have hmaps := haccepts.maps
  rw [hr] at hmaps
  have hgood := hmaps.resolve_left hsize
  dsimp only [VmachoAccess.InBounds]
  rw [sub64_of_le hlowest haddr]
  constructor
  · rintro ⟨-, hdst⟩
    omega
  · intro hwrap
    rw [Nat.mod_eq_of_lt hwrap] at hhighest
    constructor <;> omega

/-- No copy is made, or no range that is copied wraps around. -/
def CopiesFit (file : ByteMemory) (useSections : Bool) (cs : List ℕ) : Prop :=
  let range := extent (2 ^ 64 - 1, 0) (cs.filterMap (mappedBounds file useSections))
  range.2 < range.1 ∨ ∀ c ∈ cs, ∀ r,
    getMappedSegmentRange file useSections c = .ok r → r.size ≠ 0 →
      r.addr + r.size < 2 ^ 64

theorem copiesFit_sections : CopiesFit file true cs := by
  refine .inr fun c _ r hr _ => ?_
  obtain ⟨seg, hseg, hrange⟩ := exists_segment_of_ok hr
  exact segmentRange_sections_lt (inWord_of_segmentAt hseg) hrange

theorem mem_mappedBounds (hc : c ∈ cs)
    (hr : getMappedSegmentRange file useSections c = .ok r) (hsize : r.size ≠ 0) :
    (r.addr, (r.addr + r.size) % 2 ^ 64) ∈
      cs.filterMap (mappedBounds file useSections) :=
  List.mem_filterMap.mpr ⟨c, hc, mappedBounds_of_ok hr hsize⟩

/-- The segment of an accepted command is the range that is mapped. -/
theorem RangeAccepts.exists_range (hflen : flen < 2 ^ 63)
    (h : RangeAccepts file flen false c) (hseg : segmentAt file c = some seg) :
    ∃ r, getMappedSegmentRange file false c = .ok r ∧
      r.addr = seg.vmaddr ∧ r.size = seg.filesize := by
  have hr : ∃ r, segmentRange false seg = .ok r := ⟨_, rfl⟩
  obtain ⟨r, hr⟩ := hr
  have hmaps := h.maps
  rw [getMappedSegmentRange, hseg] at hmaps ⊢
  dsimp only at hmaps ⊢
  rw [hr] at hmaps
  exact ⟨r, hr, segmentRange_size hflen hseg hr hmaps⟩

/-- The bounds are those of the segments that map something. -/
theorem mem_mappedBounds_segments_iff {i : ℕ × ℕ} (hflen : flen < 2 ^ 63)
    (hall : ∀ c ∈ cs, RangeAccepts file flen false c) :
    i ∈ cs.filterMap (mappedBounds file false) ↔
      ∃ seg ∈ segments file cs, seg.filesize ≠ 0 ∧
        i = (seg.vmaddr, (seg.vmaddr + seg.filesize) % 2 ^ 64) := by
  constructor
  · intro hi
    obtain ⟨c, hc, hi⟩ := List.mem_filterMap.mp hi
    unfold mappedBounds at hi
    split at hi
    · rename_i r hr
      split at hi
      · cases hi
      · rename_i hsize
        obtain ⟨seg, hseg, -⟩ := exists_segment_of_ok hr
        obtain ⟨r', hr', haddr', hsize'⟩ := (hall c hc).exists_range hflen hseg
        cases hr.symm.trans hr'
        cases hi
        refine ⟨seg, List.mem_filterMap.mpr ⟨c, hc, hseg⟩, ?_, ?_⟩
        · rwa [← hsize']
        · rw [haddr', hsize']
    · cases hi
  · rintro ⟨seg, hmem, hsize, rfl⟩
    obtain ⟨c, hc, hseg⟩ := List.mem_filterMap.mp hmem
    obtain ⟨r, hr, haddr, hsize'⟩ := (hall c hc).exists_range hflen hseg
    rw [← haddr, ← hsize']
    exact mem_mappedBounds hc hr (by rwa [hsize'])

theorem ranges_fit_iff (hflen : flen < 2 ^ 63)
    (hall : ∀ c ∈ cs, RangeAccepts file flen false c) :
    (∀ c ∈ cs, ∀ r, getMappedSegmentRange file false c = .ok r → r.size ≠ 0 →
        r.addr + r.size < 2 ^ 64) ↔
      ∀ seg ∈ segments file cs, seg.vmaddr + seg.filesize < 2 ^ 64 := by
  constructor
  · intro h seg hmem
    obtain ⟨c, hc, hseg⟩ := List.mem_filterMap.mp hmem
    obtain ⟨r, hr, haddr, hsize⟩ := (hall c hc).exists_range hflen hseg
    by_cases hzero : r.size = 0
    · have hword := inWord_of_segmentAt hseg
      rw [← hsize, hzero]
      exact Nat.lt_of_lt_of_le hword.vmaddr_lt hword.wordSize_le
    · rw [← haddr, ← hsize]
      exact h c hc r hr hzero
  · intro h c hc r hr _
    obtain ⟨seg, hseg, -⟩ := exists_segment_of_ok hr
    obtain ⟨r', hr', haddr, hsize⟩ := (hall c hc).exists_range hflen hseg
    cases hr.symm.trans hr'
    rw [haddr, hsize]
    exact h seg (List.mem_filterMap.mpr ⟨c, hc, hseg⟩)

theorem copiesFit_segments_iff (hflen : flen < 2 ^ 63)
    (hall : ∀ c ∈ cs, RangeAccepts file flen false c) :
    CopiesFit file false cs ↔ SegmentsFit (segments file cs) := by
  have hle : ∀ i ∈ cs.filterMap (mappedBounds file false), i.1 ≤ 2 ^ 64 - 1 := by
    intro i hi
    obtain ⟨seg, hmem, -, rfl⟩ := (mem_mappedBounds_segments_iff hflen hall).mp hi
    obtain ⟨c, -, hseg⟩ := List.mem_filterMap.mp hmem
    have hword := inWord_of_segmentAt hseg
    exact Nat.le_pred_of_lt
      (Nat.lt_of_lt_of_le hword.vmaddr_lt hword.wordSize_le)
  rw [CopiesFit, SegmentsFit, or_comm, ranges_fit_iff hflen hall]
  refine or_congr_right ((extent_empty_iff (by decide) hle).trans ?_)
  constructor
  · intro h seg hseg seg' hseg' hsize hsize'
    exact h _ ((mem_mappedBounds_segments_iff hflen hall).mpr ⟨seg, hseg, hsize, rfl⟩)
      _ ((mem_mappedBounds_segments_iff hflen hall).mpr ⟨seg', hseg', hsize', rfl⟩)
  · intro h i hi j hj
    obtain ⟨seg, hseg, hsize, rfl⟩ :=
      (mem_mappedBounds_segments_iff hflen hall).mp hi
    obtain ⟨seg', hseg', hsize', rfl⟩ :=
      (mem_mappedBounds_segments_iff hflen hall).mp hj
    exact h seg hseg seg' hseg' hsize hsize'

end Ranges

/-! ## Bounds -/

section Bounds

variable {file : ByteMemory} {flen fuel c : ℕ} {useSections : Bool}
  {cs : List ℕ}

theorem vmachoAccesses_of_not_passesHeader {malloc : ℕ → Bool}
    (h : ¬ PassesHeader file flen) :
    vmachoAccesses file flen useSections malloc fuel = [] := by
  unfold vmachoAccesses
  split
  · rfl
  rename_i hmagicEnd
  split
  · rfl
  split
  · rfl
  rename_i hmagic
  split
  · rfl
  · rename_i hcommands
    refine absurd ⟨Nat.le_of_not_lt hmagicEnd, ?_, Nat.le_of_not_lt hcommands⟩ h
    rw [not_and_or, not_not, not_not] at hmagic
    exact hmagic

theorem PassesHeader.vmachoAccesses_eq (h : PassesHeader file flen)
    {malloc : ℕ → Bool} (hmalloc : malloc flen = true) :
    vmachoAccesses file flen useSections malloc fuel =
      forCommandsTrace file (commandsEnd file)
          (rangeAccesses file useSections (commandsEnd file))
          (rangeCommand file flen useSections (commandsEnd file)) fuel
          (headerSize file) (2 ^ 64 - 1, 0) ++
        afterOk (forCommands file (commandsEnd file)
          (rangeCommand file flen useSections (commandsEnd file)) fuel
          (headerSize file) (2 ^ 64 - 1, 0)) fun (lowest, highest) =>
            if highest < lowest then []
            else if ¬ malloc (highest - lowest) then []
            else
              forCommandsTrace file (commandsEnd file)
                (copyAccesses file useSections (highest - lowest) lowest)
                (copyCommand file useSections lowest) fuel (headerSize file)
                fun _ => 0 := by
  have hmagic : ¬ (file.u32 0 ≠ magic32 ∧ file.u32 0 ≠ magic64) := by
    rw [not_and_or, not_not, not_not]
    exact h.magic
  rw [vmachoAccesses, if_neg (Nat.not_lt.mpr h.magic_end),
    if_neg (not_not_intro hmalloc), if_neg hmagic,
    if_neg (Nat.not_lt.mpr h.commands)]

theorem vmachoAccesses_of_not_malloc {malloc : ℕ → Bool}
    (hmalloc : malloc flen ≠ true) :
    vmachoAccesses file flen useSections malloc fuel = [] := by
  simp only [vmachoAccesses, if_pos hmalloc, ite_self]

/-- The headers are read in the file. -/
theorem headers_of_inBounds (hheader : PassesHeader file flen)
    (h : VmachoInBounds file flen useSections)
    (hreached : RangeReached file flen useSections c)
    (h8 : c + 8 ≤ commandsEnd file)
    (hsize : c + cmdSize file c ≤ commandsEnd file) :
    HeaderFits file flen useSections c := by
  have hcommands := hheader.commands
  refine (commandReads_inBounds_iff (by omega)).mp fun x hx => ?_
  have hround : x ∈ rangeAccesses file useSections (commandsEnd file) c := by
    rw [rangeAccesses, if_neg (Nat.not_lt.mpr h8), if_neg (Nat.not_lt.mpr hsize)]
    exact List.mem_cons_of_mem _ hx
  obtain ⟨fuel, hfuel⟩ := hreached.mem_trace
    (fun d hd range => (rangeCommand_ok_iff range).mpr hd) hround
  refine h (fun _ => true) fuel x ?_
  rw [hheader.vmachoAccesses_eq rfl]
  exact List.mem_append_left _ (hfuel fuel le_rfl _)

/-- What the first loop does is in the file. -/
theorem rangeAccesses_inBounds (hheader : PassesHeader file flen)
    (h : c + 8 ≤ commandsEnd file → c + cmdSize file c ≤ commandsEnd file →
      HeaderFits file flen useSections c) :
    ∀ x ∈ rangeAccesses file useSections (commandsEnd file) c,
      x.InBounds flen := by
  have hcommands := hheader.commands
  intro x hx
  unfold rangeAccesses at hx
  split at hx
  · cases hx
  · rename_i h8
    rcases List.mem_cons.mp hx with rfl | hx
    · dsimp only [VmachoAccess.InBounds]
      omega
    · split at hx
      · cases hx
      · rename_i hsize
        exact (commandReads_inBounds_iff (by omega)).mpr
          (h (Nat.le_of_not_lt h8) (Nat.le_of_not_lt hsize)) x hx

/-- What the second loop does after the first one came to the end. -/
theorem copyAccesses_inBounds_iff (hheader : PassesHeader file flen)
    (haccepts : RangeAccepts file flen useSections c)
    (hfits : HeaderFits file flen useSections c) {lowest highest : ℕ}
    (hlt : highest < 2 ^ 64) (hle : lowest ≤ highest)
    (hbounds : ∀ b, mappedBounds file useSections c = some b →
      lowest ≤ b.1 ∧ b.2 ≤ highest) :
    (∀ x ∈ copyAccesses file useSections (highest - lowest) lowest c,
        x.InBounds flen) ↔
      ∀ r, getMappedSegmentRange file useSections c = .ok r → r.size ≠ 0 →
        r.addr + r.size < 2 ^ 64 := by
  have hcommands := hheader.commands
  have h8 := haccepts.header_end
  have hreads := (commandReads_inBounds_iff (by omega)).mpr hfits
  have hcopy : ∀ r, getMappedSegmentRange file useSections c = .ok r →
      r.size ≠ 0 → ((VmachoAccess.copy (highest - lowest) (sub64 r.addr lowest)
        r.off r.size).InBounds flen ↔ r.addr + r.size < 2 ^ 64) := by
    intro r hr hsize
    obtain ⟨hlowest, hhighest⟩ := hbounds _ (mappedBounds_of_ok hr hsize)
    exact copy_inBounds_iff haccepts hr hsize hlowest hhighest hlt hle
  unfold copyAccesses
  constructor
  · intro h r hr hsize
    refine (hcopy r hr hsize).mp (h _ (List.mem_append_right _ ?_))
    rw [hr]
    simp only [if_neg hsize]
    exact List.mem_singleton_self _
  · intro h x hx
    rcases List.mem_append.mp hx with hx | hx
    · exact hreads x hx
    · split at hx
      · rename_i vmaddr fileoff size hr
        split at hx
        · cases hx
        · rename_i hsize
          cases List.mem_singleton.mp hx
          exact (hcopy _ hr hsize).mpr (h _ hr hsize)
      · cases hx

theorem extent_mappedBounds_lt :
    (extent (2 ^ 64 - 1, 0) (cs.filterMap (mappedBounds file useSections))).2 <
      2 ^ 64 := by
  rcases extent_snd_mem (r := (2 ^ 64 - 1, 0))
    (l := cs.filterMap (mappedBounds file useSections)) with heq | ⟨b, hb, heq⟩
  · rw [heq]
    exact Nat.two_pow_pos 64
  · obtain ⟨c, -, hb⟩ := List.mem_filterMap.mp hb
    rw [heq]
    unfold mappedBounds at hb
    split at hb
    · split at hb
      · cases hb
      · cases hb
        exact Nat.mod_lt _ (Nat.two_pow_pos 64)
    · cases hb

theorem bounds_within_extent (hc : c ∈ cs) (b : ℕ × ℕ)
    (hb : mappedBounds file useSections c = some b) :
    (extent (2 ^ 64 - 1, 0) (cs.filterMap (mappedBounds file useSections))).1 ≤
        b.1 ∧
      b.2 ≤
        (extent (2 ^ 64 - 1, 0) (cs.filterMap (mappedBounds file useSections))).2 :=
  extent_le_of_mem (List.mem_filterMap.mpr ⟨c, hc, hb⟩)

/-- The commands of a run whose first loop comes to the end. -/
theorem rangeReached_of_mem
    (hcs : Commands file (commandsEnd file) (headerSize file) cs)
    (hall : ∀ c ∈ cs, RangeAccepts file flen useSections c) (hc : c ∈ cs) :
    RangeReached file flen useSections c :=
  reached_of_mem hcs hall hc

theorem copiesFit_of_inBounds (hheader : PassesHeader file flen)
    (h : VmachoInBounds file flen useSections)
    (hcs : Commands file (commandsEnd file) (headerSize file) cs)
    (hall : ∀ c ∈ cs, RangeAccepts file flen useSections c) :
    CopiesFit file useSections cs := by
  rw [CopiesFit, or_iff_not_imp_left]
  intro hle c hc
  have hle := Nat.le_of_not_lt hle
  have hreached := rangeReached_of_mem hcs hall hc
  have haccepts := hall c hc
  have hfits := headers_of_inBounds hheader h hreached haccepts.header_end
    haccepts.command_end
  refine (copyAccesses_inBounds_iff hheader haccepts hfits extent_mappedBounds_lt
    hle (bounds_within_extent hc)).mp fun x hx => ?_
  obtain ⟨bound, hbound⟩ : ∃ bound, ∀ fuel, bound ≤ fuel → ∀ mem,
      x ∈ forCommandsTrace file (commandsEnd file)
        (copyAccesses file useSections _ _) (copyCommand file useSections _) fuel
        (headerSize file) mem :=
    hreached.mem_trace (fun d hd => hd.copyCommand_ok _) hx
  refine h (fun _ => true) (max bound (cs.length + 1)) x ?_
  rw [hheader.vmachoAccesses_eq rfl]
  refine List.mem_append_right _ (mem_afterOk.mpr ⟨extent (2 ^ 64 - 1, 0)
    (cs.filterMap (mappedBounds file useSections)), ?_, ?_⟩)
  · rw [forCommands_eq hcs (Nat.lt_of_lt_of_le (Nat.lt_succ_self _)
      (Nat.le_max_right _ _)), foldlM_rangeCommand hall]
  · simp only [if_neg (Nat.not_lt.mpr hle), not_true, if_false]
    exact hbound _ (Nat.le_max_left _ _) _

/-- `vmacho` keeps to the file and its allocation exactly if the headers of the
commands are in the file and no segment that is copied wraps around. -/
theorem vmachoInBounds_iff (hflen : flen < 2 ^ 63) :
    VmachoInBounds file flen useSections ↔
      (PassesHeader file flen → CommandsFit file flen useSections) := by
  constructor
  · intro h hheader
    refine ⟨fun c hreached => headers_of_inBounds hheader h hreached, ?_⟩
    rintro rfl cs hcs hall
    exact (copiesFit_segments_iff hflen hall).mp
      (copiesFit_of_inBounds hheader h hcs hall)
  · intro h malloc fuel x hx
    by_cases hheader : PassesHeader file flen
    swap
    · rw [vmachoAccesses_of_not_passesHeader hheader] at hx
      cases hx
    by_cases hmalloc : malloc flen = true
    swap
    · rw [vmachoAccesses_of_not_malloc hmalloc] at hx
      cases hx
    have hcommands := hheader.commands
    have hfit := h hheader
    rw [hheader.vmachoAccesses_eq hmalloc] at hx
    rcases List.mem_append.mp hx with hx | hx
    · obtain ⟨c, hreached, hx⟩ := reached_of_mem_trace
        (fun range d range' hd => (rangeCommand_ok_iff range).mp ⟨range', hd⟩) hx
      rcases hx with hx | ⟨haccepts, rfl⟩
      · exact rangeAccesses_inBounds hheader (hfit.headers c hreached) x hx
      · have h8 := haccepts.header_end
        dsimp only [VmachoAccess.InBounds]
        omega
    · obtain ⟨⟨lowest, highest⟩, hfirst, hx⟩ := mem_afterOk.mp hx
      simp only at hx
      split at hx
      · cases hx
      rename_i hle
      split at hx
      · cases hx
      obtain ⟨cs, hcs, -⟩ := commands_of_forCommands hfirst
      have hfold := forCommands_ok hcs hfirst
      have hall : ∀ c ∈ cs, RangeAccepts file flen useSections c :=
        fun c hc => rangeAccepts_of_foldlM hfold hc
      have hcopies : CopiesFit file useSections cs := by
        cases useSections with
        | true => exact copiesFit_sections
        | false =>
            exact (copiesFit_segments_iff hflen hall).mpr
              (hfit.segments rfl cs hcs hall)
      rw [foldlM_rangeCommand hall] at hfold
      have hrange := Except.ok.inj hfold
      obtain rfl : _ = lowest := congrArg Prod.fst hrange
      obtain rfl : _ = highest := congrArg Prod.snd hrange
      obtain ⟨c, hreached, hx⟩ :=
        reached_of_mem_trace (fun _ _ _ _ => trivial) hx
      have hc := hreached.mem_commands hcs
      have haccepts := hall c hc
      rcases hx with hx | ⟨-, rfl⟩
      · exact (copyAccesses_inBounds_iff hheader haccepts
          (hfit.headers c (rangeReached_of_mem hcs hall hc) haccepts.header_end
            haccepts.command_end) extent_mappedBounds_lt (Nat.le_of_not_lt hle)
          (bounds_within_extent hc)).mpr
            (hcopies.resolve_left hle c hc) x hx
      · have h8 := haccepts.header_end
        dsimp only [VmachoAccess.InBounds]
        omega

theorem vmachoInBounds_sampleMachO : VmachoInBounds sampleMachO 176 true := by
  refine (vmachoInBounds_iff (by decide)).mpr fun _ => ⟨?_, nofun⟩
  intro c hreached _ _
  have hc : c ∈ [32, 104] :=
    hreached.mem_commands wellFormed_sampleMachO.commands
  have hfields : ∀ c ∈ [32, 104], sampleMachO.u32 c = lcSegment64 ∧
      sampleMachO.u32 (c + 64) = 0 ∧ c + 72 ≤ 176 := by
    decide +kernel
  obtain ⟨hcmd, hnsects, hend⟩ := hfields c hc
  intro L hL
  rw [layoutAt, hcmd, if_neg (by decide), if_pos rfl] at hL
  cases hL
  refine ⟨?_, fun _ => ⟨?_, fun i hi => ?_⟩⟩
  · simp only [layout64]
    omega
  · simp only [layout64]
    omega
  · rw [show c + layout64.nsects = c + 64 from rfl, hnsects] at hi
    cases hi

/-- A file of 40 bytes with one segment command of 8 bytes. -/
def shortMachO : ByteMemory :=
  ((ByteMemory.write (fun _ => 0) 0 [0xcf, 0xfa, 0xed, 0xfe]).write 20 [8]).write
    32 [0x19, 0, 0, 0, 8]

theorem short_segment_reads_outside : ¬ VmachoInBounds shortMachO 40 true := by
  intro h
  have hheader : PassesHeader shortMachO 40 :=
    ⟨by decide, .inr (by decide +kernel), by decide +kernel⟩
  have hstart : headerSize shortMachO = 32 := by decide +kernel
  have hstop : commandsEnd shortMachO = 40 := by decide +kernel
  have hsize : cmdSize shortMachO 32 = 8 := by decide +kernel
  have hcmd : shortMachO.u32 32 = lcSegment64 := by decide +kernel
  have hreached : RangeReached shortMachO 40 true 32 := by
    rw [RangeReached, hstart]
    exact .here (by omega)
  have hfits := headers_of_inBounds hheader h hreached (by omega) (by omega)
  have hL : layoutAt shortMachO 32 = some layout64 := by
    rw [layoutAt, hcmd]
    rfl
  exact absurd (hfits layout64 hL).1 (by decide)

end Bounds

end PongoOS
