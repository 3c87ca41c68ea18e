import PongoOS.Tools.Vmacho

/-!
# The image that `vmacho` writes

What a command maps is a piece that is laid over the image.  The first pass finds
the range of the pieces, the second one lays them, and the pieces cover what the
segments cover.
-/

namespace PongoOS

open MachO

variable {file mem mem' : ByteMemory} {flen fuel stop cmd lowest a : ℕ}
  {useSections : Bool} {range range' : ℕ × ℕ} {cs : List ℕ}

/-! ## Sections -/

/-- The section lies in what the file has of its segment. -/
def SectionFits (seg : Segment) (s : Section) : Prop :=
  seg.vmaddr ≤ s.addr ∧ s.addr + s.size ≤ seg.vmaddr + seg.filesize

def sectionBounds (s : Section) : ℕ × ℕ := (s.addr, s.addr + s.size)

section Segment

variable {seg : Segment} {secs : List Section} {r : MappedRange}

theorem scanSection_ok {s : Section} (hbounded : seg.Bounded)
    (haddr : s.addr < seg.wordSize) (hsize : s.size < seg.wordSize)
    (h : scanSection seg range s = .ok range') :
    (Segment.IsMapped s → SectionFits seg s) ∧
      range' = extent range (if Segment.IsMapped s then [sectionBounds s] else []) := by
  unfold scanSection at h
  split at h
  · rename_i hzerofill
    cases h
    have hmapped : ¬ Segment.IsMapped s := fun h => h hzerofill
    exact ⟨fun h => absurd h hmapped, by rw [if_neg hmapped]; rfl⟩
  · rename_i hmapped
    simp only at h
    split at h
    · cases h
    · rename_i hfits
      cases h
      push Not at hfits
      have hwrap : (s.addr + s.size) % seg.wordSize = s.addr + s.size := by
        apply Nat.mod_eq_of_lt
        by_contra hge
        have hsub : (s.addr + s.size) % seg.wordSize =
            s.addr + s.size - seg.wordSize := by
          rw [Nat.mod_eq_sub_mod (by omega), Nat.mod_eq_of_lt (by omega)]
        omega
      rw [hwrap, Nat.mod_eq_of_lt hbounded.1] at hfits
      refine ⟨fun _ => ⟨hfits.2.1, hfits.2.2⟩, ?_⟩
      rw [if_pos (show Segment.IsMapped s from hmapped), hwrap]
      rfl

theorem scanSections_ok (hbounded : seg.Bounded)
    (hsecs : ∀ s ∈ secs, s.addr < seg.wordSize ∧ s.size < seg.wordSize)
    (h : secs.foldlM (scanSection seg) range = .ok range') :
    (∀ s ∈ secs.filter fun s => Segment.IsMapped s, SectionFits seg s) ∧
      range' = extent range
        ((secs.filter fun s => Segment.IsMapped s).map sectionBounds) := by
  induction secs generalizing range with
  | nil =>
      cases h
      exact ⟨fun _ hs => absurd hs List.not_mem_nil, rfl⟩
  | cons s secs ih =>
      rw [List.foldlM_cons, except_bind_eq_ok] at h
      obtain ⟨range₁, hfirst, hrest⟩ := h
      obtain ⟨hs, hrange₁⟩ := scanSection_ok hbounded
        (hsecs s List.mem_cons_self).1 (hsecs s List.mem_cons_self).2 hfirst
      obtain ⟨hall, hrange'⟩ :=
        ih (fun t ht => hsecs t (List.mem_cons_of_mem _ ht)) hrest
      by_cases hmapped : Segment.IsMapped s
      · rw [if_pos hmapped] at hrange₁
        rw [List.filter_cons_of_pos (by simpa using hmapped)]
        refine ⟨fun t ht => ?_, ?_⟩
        · rcases List.mem_cons.mp ht with rfl | ht
          · exact hs hmapped
          · exact hall t ht
        · rw [hrange', hrange₁]
          rfl
      · rw [if_neg hmapped] at hrange₁
        rw [List.filter_cons_of_neg (by simpa using hmapped), hrange', hrange₁]
        exact ⟨hall, rfl⟩

/-- What `get_mapped_segment_range` says about a segment. -/
structure RangeSpec (useSections : Bool) (seg : Segment) (r : MappedRange) :
    Prop where
  bounded : r.addr + r.size < 2 ^ 64
  covers_iff : ∀ a, seg.Covers useSections a ↔
    r.addr ≤ a ∧ a < r.addr + r.size
  off_eq : r.size ≠ 0 →
    seg.vmaddr ≤ r.addr ∧ r.off = seg.fileoff + (r.addr - seg.vmaddr)
  in_word : r.size ≠ 0 → r.off + r.size < 2 ^ 64

theorem segmentRange_segment (hword : seg.InWord) (hbounded : seg.Bounded) :
    ∃ r, segmentRange false seg = .ok r ∧ RangeSpec false seg r := by
  have hsize : sub64 ((seg.vmaddr + seg.filesize) % seg.wordSize) seg.vmaddr =
      seg.filesize := by
    have hlt := hbounded.1
    have hle := hword.wordSize_le
    rw [Nat.mod_eq_of_lt hlt, sub64_of_le (by omega) (by omega),
      Nat.add_sub_cancel_left]
  refine ⟨⟨seg.vmaddr, seg.fileoff, seg.filesize⟩, ?_, ?_⟩
  · simp only [segmentRange, hsize]
    rfl
  · constructor
    · exact Nat.lt_of_lt_of_le hbounded.1 hword.wordSize_le
    · exact fun a => Iff.rfl
    · exact fun _ => ⟨Nat.le_refl _, by simp⟩
    · exact fun _ => hbounded.2

/-- The bounds that the scan of the sections leaves.  Each one is a section's
bound, or still the one that the scan started with. -/
structure ScannedRange (seg : Segment) (lowest highest : ℕ) : Prop where
  fits : ∀ s ∈ seg.mappedSections, SectionFits seg s
  between : ∀ s ∈ seg.mappedSections,
    lowest ≤ s.addr ∧ s.addr + s.size ≤ highest
  low : lowest = 2 ^ 64 - 1 ∨ ∃ s ∈ seg.mappedSections, lowest = s.addr
  high : highest = 0 ∨ ∃ s ∈ seg.mappedSections, highest = s.addr + s.size

theorem scanSections_range {lowest highest : ℕ} (hword : seg.InWord)
    (hbounded : seg.Bounded)
    (h : seg.sections.foldlM (scanSection seg) (2 ^ 64 - 1, 0) =
      .ok (lowest, highest)) : ScannedRange seg lowest highest := by
  obtain ⟨hfits, hextent⟩ := scanSections_ok hbounded hword.sections_lt h
  change _ = extent _ (seg.mappedSections.map sectionBounds) at hextent
  constructor
  · exact hfits
  · intro s hs
    have hle := extent_le_of_mem (r := (2 ^ 64 - 1, 0))
      (List.mem_map_of_mem (f := sectionBounds) hs)
    rwa [← hextent] at hle
  · have hmem := extent_fst_mem (r := (2 ^ 64 - 1, 0))
      (l := seg.mappedSections.map sectionBounds)
    rw [← hextent] at hmem
    apply hmem.imp_right
    rintro ⟨_, hi, heq⟩
    obtain ⟨s, hs, rfl⟩ := List.mem_map.mp hi
    exact ⟨s, hs, heq⟩
  · have hmem := extent_snd_mem (r := (2 ^ 64 - 1, 0))
      (l := seg.mappedSections.map sectionBounds)
    rw [← hextent] at hmem
    apply hmem.imp_right
    rintro ⟨_, hi, heq⟩
    obtain ⟨s, hs, rfl⟩ := List.mem_map.mp hi
    exact ⟨s, hs, heq⟩

namespace ScannedRange

variable {lowest highest : ℕ}

theorem exists_first (h : ScannedRange seg lowest highest)
    (hword : seg.InWord) (hbounded : seg.Bounded) (hle : lowest ≤ highest) :
    ∃ s ∈ seg.mappedSections, lowest = s.addr := by
  have hsize := hword.wordSize_le
  have hlt := hbounded.1
  rcases h.low with heq | hmem
  · rcases h.high with heq' | ⟨s, hs, heq'⟩
    · omega
    · have hstart := (h.between s hs).1
      have hstop := (h.fits s hs).2
      exact ⟨s, hs, by omega⟩
  · exact hmem

theorem exists_last (h : ScannedRange seg lowest highest)
    (hword : seg.InWord) (hbounded : seg.Bounded) (hle : lowest ≤ highest) :
    ∃ s ∈ seg.mappedSections, highest = s.addr + s.size := by
  obtain ⟨s, hs, hlowest⟩ := h.exists_first hword hbounded hle
  have hbetween := h.between s hs
  rcases h.high with heq | hmem
  · exact ⟨s, hs, by omega⟩
  · exact hmem

/-- No section is mapped. -/
theorem not_covers (h : ScannedRange seg lowest highest)
    (hempty : highest < lowest) (a : ℕ) : ¬ seg.Covers true a := by
  rintro ⟨⟨s, hs, -⟩, -⟩
  have hbetween := h.between s hs
  omega

theorem covers_iff (h : ScannedRange seg lowest highest)
    (hword : seg.InWord) (hbounded : seg.Bounded) (hle : lowest ≤ highest)
    (a : ℕ) : seg.Covers true a ↔ lowest ≤ a ∧ a < highest := by
  obtain ⟨s, hs, hlowest⟩ := h.exists_first hword hbounded hle
  obtain ⟨t, ht, hhighest⟩ := h.exists_last hword hbounded hle
  constructor
  · rintro ⟨⟨u, hu, hua⟩, ⟨v, hv, hva⟩⟩
    have hu := h.between u hu
    have hv := h.between v hv
    omega
  · rintro ⟨hlo, hhi⟩
    exact ⟨⟨s, hs, by omega⟩, ⟨t, ht, by omega⟩⟩

/-- The bounds are within the file's part of the segment. -/
theorem within (h : ScannedRange seg lowest highest)
    (hword : seg.InWord) (hbounded : seg.Bounded) (hle : lowest ≤ highest) :
    seg.vmaddr ≤ lowest ∧ highest ≤ seg.vmaddr + seg.filesize := by
  obtain ⟨s, hs, hlowest⟩ := h.exists_first hword hbounded hle
  obtain ⟨t, ht, hhighest⟩ := h.exists_last hword hbounded hle
  rw [hlowest, hhighest]
  exact ⟨(h.fits s hs).1, (h.fits t ht).2⟩

end ScannedRange

theorem segmentRange_sections (hword : seg.InWord) (hbounded : seg.Bounded)
    (h : segmentRange true seg = .ok r) : RangeSpec true seg r := by
  have hsize := hword.wordSize_le
  have hlt := hbounded.1
  have hfile := hbounded.2
  simp only [segmentRange, if_true, except_bind_eq_ok] at h
  obtain ⟨⟨lowest, highest⟩, hscan, h⟩ := h
  have hrange := scanSections_range hword hbounded hscan
  by_cases hempty : highest < lowest
  · rw [if_pos hempty] at h
    cases h
    constructor
    · have hvmaddr := hword.vmaddr_lt
      exact Nat.lt_of_lt_of_le hvmaddr hsize
    · intro a
      apply iff_of_false (hrange.not_covers hempty a)
      simp only
      omega
    · exact fun h => absurd rfl h
    · exact fun h => absurd rfl h
  · rw [if_neg hempty] at h
    have hle := Nat.le_of_not_lt hempty
    obtain ⟨hlo, hhi⟩ := hrange.within hword hbounded hle
    rw [sub64_of_le hle (by omega), sub64_of_le hlo (by omega),
      Nat.mod_eq_of_lt (by omega)] at h
    cases h
    constructor
    · simp only
      omega
    · intro a
      rw [hrange.covers_iff hword hbounded hle]
      simp only
      omega
    · exact fun _ => ⟨hlo, rfl⟩
    · intro _
      simp only
      omega

theorem segmentRange_spec (hword : seg.InWord) (hbounded : seg.Bounded)
    (h : segmentRange useSections seg = .ok r) : RangeSpec useSections seg r := by
  cases useSections with
  | true => exact segmentRange_sections hword hbounded h
  | false =>
      obtain ⟨r', hr', hspec⟩ := segmentRange_segment hword hbounded
      cases h.symm.trans hr'
      exact hspec

theorem scanSection_error {s : Section} {e : ℕ}
    (h : scanSection seg range s = .error e) : e = 2 := by
  unfold scanSection at h
  split at h
  · cases h
  · simp only at h
    split at h
    · cases h
      rfl
    · cases h

/-- A segment is never taken for another command. -/
theorem segmentRange_error {e : ℕ} (h : segmentRange useSections seg = .error e) :
    e = 2 := by
  cases useSections with
  | true =>
      simp only [segmentRange, if_true, except_bind_eq_error] at h
      rcases h with hscan | ⟨_, -, hrest⟩
      · exact foldlM_error (E := fun e => e = 2)
          (fun _ _ _ => scanSection_error) hscan
      · split at hrest <;> cases hrest
  | false => cases h

end Segment

/-! ## Commands -/

section Loop

variable {σ : Type} {body : σ → ℕ → Except VmachoError σ} {s s' : σ}

theorem forCommands_ok (hcs : Commands file stop cmd cs)
    (h : forCommands file stop body fuel cmd s = .ok s') :
    cs.foldlM body s = .ok s' := by
  induction hcs generalizing fuel s with
  | nil hstop =>
      cases fuel with
      | zero => cases h
      | succ fuel =>
          rw [forCommands, if_pos hstop] at h
          exact h
  | cons hlt _ ih =>
      cases fuel with
      | zero => cases h
      | succ fuel =>
          rw [forCommands, if_neg (Nat.not_le_of_lt hlt)] at h
          obtain ⟨s₁, hfirst, hrest⟩ := except_bind_eq_ok.mp h
          rw [List.foldlM_cons, hfirst]
          exact ih hrest

theorem forCommands_eq (hcs : Commands file stop cmd cs)
    (hfuel : cs.length < fuel) :
    forCommands file stop body fuel cmd s = cs.foldlM body s := by
  induction hcs generalizing fuel s with
  | nil hstop =>
      cases fuel with
      | zero => cases hfuel
      | succ fuel => rw [forCommands, if_pos hstop, List.foldlM_nil]
  | cons hlt _ ih =>
      cases fuel with
      | zero => cases hfuel
      | succ fuel =>
          rw [forCommands, if_neg (Nat.not_le_of_lt hlt), List.foldlM_cons]
          exact congrArg _ (funext fun s₁ => ih (Nat.lt_of_succ_lt_succ hfuel))

end Loop

/-- What a command lays over the image. -/
def commandPiece (file : ByteMemory) (useSections : Bool) (cmd : ℕ) :
    Option (Piece UInt8) :=
  match getMappedSegmentRange file useSections cmd with
  | .ok r =>
      if r.size = 0 then none
      else some ⟨r.addr, r.addr + r.size, fun a => file (r.off + (a - r.addr))⟩
  | .error _ => none

/-- The tool goes on behind the command. -/
structure Accepts (file : ByteMemory) (flen : ℕ) (useSections : Bool)
    (cmd : ℕ) : Prop where
  range_ok : ∀ seg, segmentAt file cmd = some seg →
    ∃ r, segmentRange useSections seg = .ok r
  in_file : ∀ r, getMappedSegmentRange file useSections cmd = .ok r →
    r.size ≠ 0 → r.off + r.size ≤ flen

/-- The segment that a command describes does not wrap. -/
def CommandBounded (file : ByteMemory) (cmd : ℕ) : Prop :=
  ∀ seg, segmentAt file cmd = some seg → seg.Bounded

theorem rangeSpec_of_ok {r : MappedRange} (hbounded : CommandBounded file cmd)
    (h : getMappedSegmentRange file useSections cmd = .ok r) :
    ∃ seg, segmentAt file cmd = some seg ∧ RangeSpec useSections seg r := by
  unfold getMappedSegmentRange at h
  split at h
  · rename_i seg hseg
    exact ⟨seg, hseg,
      segmentRange_spec (inWord_of_segmentAt hseg) (hbounded seg hseg) h⟩
  · cases h

theorem segmentAt_of_error_one
    (h : getMappedSegmentRange file useSections cmd = .error 1) :
    segmentAt file cmd = none := by
  unfold getMappedSegmentRange at h
  split at h
  · cases segmentRange_error h
  · assumption

theorem rangeCommand_ok (hbounded : CommandBounded file cmd)
    (h : rangeCommand file flen useSections stop range cmd = .ok range') :
    Accepts file flen useSections cmd ∧ range' = extent range
      ((commandPiece file useSections cmd).toList.map Piece.bounds) := by
  unfold rangeCommand at h
  split at h
  · cases h
  split at h
  · rename_i hrange
    cases h
    refine ⟨⟨fun seg hseg => ?_, fun r hr => ?_⟩, ?_⟩
    · rw [segmentAt_of_error_one hrange] at hseg
      cases hseg
    · cases hrange.symm.trans hr
    · rw [commandPiece, hrange]
      rfl
  · cases h
  · rename_i vmaddr fileoff size hrange
    obtain ⟨seg, hseg, hspec⟩ := rangeSpec_of_ok hbounded hrange
    have hok : ∀ seg', segmentAt file cmd = some seg' →
        ∃ r, segmentRange useSections seg' = .ok r := by
      intro seg' hseg'
      rw [getMappedSegmentRange, hseg'] at hrange
      exact ⟨_, hrange⟩
    split at h
    · rename_i hsize
      cases h
      refine ⟨⟨hok, fun r hr hne => ?_⟩, ?_⟩
      · cases hrange.symm.trans hr
        exact absurd hsize hne
      · rw [commandPiece, hrange]
        simp [hsize]
    · rename_i hsize
      simp only at h
      split at h
      · cases h
      · rename_i hin
        cases h
        have haddr := hspec.bounded
        have hword := hspec.in_word hsize
        simp only at haddr hword
        rw [Nat.mod_eq_of_lt hword] at hin
        refine ⟨⟨hok, fun r hr _ => ?_⟩, ?_⟩
        · cases hrange.symm.trans hr
          exact Nat.le_of_not_lt fun hlt => hin (.inl hlt)
        · rw [commandPiece, hrange, Nat.mod_eq_of_lt haddr]
          simp [hsize, Piece.bounds]

/-- What the commands lay over the image. -/
def commandPieces (file : ByteMemory) (useSections : Bool) (cs : List ℕ) :
    List (Piece UInt8) :=
  cs.filterMap (commandPiece file useSections)

theorem commandPieces_cons {c : ℕ} : commandPieces file useSections (c :: cs) =
    (commandPiece file useSections c).toList ++
      commandPieces file useSections cs := by
  unfold commandPieces
  rw [List.filterMap_cons]
  cases commandPiece file useSections c <;> rfl

theorem rangeCommands_ok (hbounded : ∀ c ∈ cs, CommandBounded file c)
    (h : cs.foldlM (rangeCommand file flen useSections stop) range = .ok range') :
    (∀ c ∈ cs, Accepts file flen useSections c) ∧ range' = extent range
      ((commandPieces file useSections cs).map Piece.bounds) := by
  induction cs generalizing range with
  | nil =>
      cases h
      exact ⟨fun _ hc => absurd hc List.not_mem_nil, rfl⟩
  | cons c cs ih =>
      rw [List.foldlM_cons, except_bind_eq_ok] at h
      obtain ⟨range₁, hfirst, hrest⟩ := h
      obtain ⟨hc, hrange₁⟩ :=
        rangeCommand_ok (hbounded c List.mem_cons_self) hfirst
      obtain ⟨hcs, hrange'⟩ :=
        ih (fun d hd => hbounded d (List.mem_cons_of_mem _ hd)) hrest
      constructor
      · intro d hd
        rcases List.mem_cons.mp hd with rfl | hd
        · exact hc
        · exact hcs d hd
      · rw [hrange', hrange₁, commandPieces_cons, List.map_append, extent,
          extent, extent, List.foldl_append]

/-! ## Copying -/

theorem copyCommand_ok {f : ℕ → UInt8} (hbounded : CommandBounded file cmd)
    (hlowest : ∀ p ∈ (commandPiece file useSections cmd).toList,
      lowest ≤ p.start)
    (hmem : ∀ a, lowest ≤ a → mem (a - lowest) = f a)
    (h : copyCommand file useSections lowest mem cmd = .ok mem') :
    ∀ a, lowest ≤ a → mem' (a - lowest) =
      Piece.layAll f (commandPiece file useSections cmd).toList a := by
  unfold copyCommand at h
  split at h
  · rename_i hrange
    cases h
    rw [commandPiece, hrange]
    exact hmem
  · cases h
  · rename_i vmaddr fileoff size hrange
    obtain ⟨seg, hseg, hspec⟩ := rangeSpec_of_ok hbounded hrange
    rw [commandPiece, hrange] at hlowest ⊢
    split at h
    · rename_i hsize
      cases h
      simp only [hsize, if_true]
      exact hmem
    · rename_i hsize
      cases h
      simp only [if_neg hsize, Option.toList_some, List.mem_singleton,
        forall_eq] at hlowest ⊢
      have haddr := hspec.bounded
      simp only at haddr
      intro a ha
      rw [ByteMemory.write_bytesAt_apply, sub64_of_le hlowest (by omega)]
      rw [Piece.layAll_cons, Piece.layAll_nil, Piece.lay_mk]
      by_cases hcovers : vmaddr ≤ a ∧ a < vmaddr + size
      · have hoff : a - lowest - (vmaddr - lowest) = a - vmaddr := by omega
        rw [if_pos (by omega), if_pos hcovers, hoff]
      · rw [if_neg (by omega), if_neg hcovers, hmem a ha]

theorem copyCommands_ok {f : ℕ → UInt8}
    (hbounded : ∀ c ∈ cs, CommandBounded file c)
    (hlowest : ∀ p ∈ commandPieces file useSections cs, lowest ≤ p.start)
    (hmem : ∀ a, lowest ≤ a → mem (a - lowest) = f a)
    (h : cs.foldlM (copyCommand file useSections lowest) mem = .ok mem') :
    ∀ a, lowest ≤ a → mem' (a - lowest) =
      Piece.layAll f (commandPieces file useSections cs) a := by
  induction cs generalizing mem f with
  | nil =>
      cases h
      exact hmem
  | cons c cs ih =>
      rw [List.foldlM_cons, except_bind_eq_ok] at h
      obtain ⟨mem₁, hfirst, hrest⟩ := h
      rw [commandPieces_cons] at hlowest ⊢
      rw [Piece.layAll_append]
      refine ih (fun d hd => hbounded d (List.mem_cons_of_mem _ hd))
        (fun p hp => hlowest p (List.mem_append_right _ hp)) ?_ hrest
      exact copyCommand_ok (hbounded c List.mem_cons_self)
        (fun p hp => hlowest p (List.mem_append_left _ hp))
        hmem hfirst

/-! ## Pieces and segments -/

/-- The segments among the load commands. -/
def segments (file : ByteMemory) (cs : List ℕ) : List Segment :=
  cs.filterMap (segmentAt file)

/-- The piece of a command covers what its segment covers, with the same bytes. -/
theorem commandPiece_some {p : Piece UInt8} (hbounded : CommandBounded file cmd)
    (h : commandPiece file useSections cmd = some p) :
    p.start < p.stop ∧ p.stop ≤ 2 ^ 64 - 1 ∧
      ∃ seg, segmentAt file cmd = some seg ∧
        (∀ a, p.Covers a ↔ seg.Covers useSections a) ∧
        ∀ a, p.Covers a → p.value a = seg.byteAt file a := by
  unfold commandPiece at h
  split at h
  · rename_i r hrange
    obtain ⟨seg, hseg, hspec⟩ := rangeSpec_of_ok hbounded hrange
    split at h
    · cases h
    · rename_i hsize
      cases h
      have haddr := hspec.bounded
      obtain ⟨hle, hoff⟩ := hspec.off_eq hsize
      refine ⟨by simp only; omega, by simp only; omega, seg, hseg,
        fun a => (hspec.covers_iff a).symm, fun a ha => ?_⟩
      have ha : r.addr ≤ a := ha.1
      have hfile : r.off + (a - r.addr) = seg.fileoff + (a - seg.vmaddr) := by
        omega
      exact congrArg file hfile
  · cases h

theorem commandPiece_none {seg : Segment} (hbounded : CommandBounded file cmd)
    (haccepts : Accepts file flen useSections cmd)
    (h : commandPiece file useSections cmd = none)
    (hseg : segmentAt file cmd = some seg) : ¬ seg.Covers useSections a := by
  obtain ⟨r, hr⟩ := haccepts.range_ok seg hseg
  have hrange : getMappedSegmentRange file useSections cmd = .ok r := by
    rw [getMappedSegmentRange, hseg]
    exact hr
  have hspec :=
    segmentRange_spec (inWord_of_segmentAt hseg) (hbounded seg hseg) hr
  rw [commandPiece, hrange] at h
  simp only at h
  split at h
  · rename_i hsize
    rw [hspec.covers_iff, hsize]
    omega
  · cases h

/-- The last piece and the last segment that cover an address have the same
byte for it. -/
theorem last_commandPieces (hbounded : ∀ c ∈ cs, CommandBounded file c)
    (haccepts : ∀ c ∈ cs, Accepts file flen useSections c) :
    (Piece.last (commandPieces file useSections cs) a).elim 0
        (fun p => p.value a) =
      imageByte file useSections (segments file cs) a := by
  induction cs using List.reverseRecOn with
  | nil => rfl
  | append_singleton cs c ih =>
      have ih := ih
        (fun d hd => hbounded d (List.mem_append_left _ hd))
        (fun d hd => haccepts d (List.mem_append_left _ hd))
      have hc := hbounded c (List.mem_append_right _ (List.mem_singleton_self c))
      have hok := haccepts c (List.mem_append_right _ (List.mem_singleton_self c))
      unfold commandPieces segments at ih ⊢
      rw [List.filterMap_append, List.filterMap_append]
      unfold imageByte lastCovering Piece.last at ih ⊢
      cases hpiece : commandPiece file useSections c with
      | none =>
          rw [List.filterMap_cons_none hpiece, List.filterMap_nil,
            List.append_nil, ih]
          cases hseg : segmentAt file c with
          | none =>
              rw [List.filterMap_cons_none hseg, List.filterMap_nil,
                List.append_nil]
          | some seg =>
              rw [List.filterMap_cons_some hseg, List.filterMap_nil,
                lastWhere_concat_of_neg
                  (P := fun seg : Segment => seg.Covers useSections a)
                  (commandPiece_none hc hok hpiece hseg)]
      | some p =>
          obtain ⟨-, -, seg, hseg, hcovers, hvalue⟩ := commandPiece_some hc hpiece
          rw [List.filterMap_cons_some hpiece, List.filterMap_cons_some hseg,
            List.filterMap_nil, List.filterMap_nil]
          by_cases ha : p.Covers a
          · rw [lastWhere_concat_of_pos (P := fun q : Piece UInt8 => q.Covers a) ha,
              lastWhere_concat_of_pos (P := fun seg : Segment => seg.Covers useSections a)
                ((hcovers a).mp ha)]
            exact hvalue a ha
          · rw [lastWhere_concat_of_neg (P := fun q : Piece UInt8 => q.Covers a) ha,
              lastWhere_concat_of_neg (P := fun seg : Segment => seg.Covers useSections a)
                fun h => ha ((hcovers a).mpr h), ih]

theorem covered_commandPieces (hbounded : ∀ c ∈ cs, CommandBounded file c)
    (haccepts : ∀ c ∈ cs, Accepts file flen useSections c) :
    Piece.Covered (commandPieces file useSections cs) =
      {a | ∃ seg ∈ segments file cs, seg.Covers useSections a} := by
  ext a
  simp only [Piece.Covered, commandPieces, segments, List.mem_filterMap,
    Set.mem_ofPred_eq]
  constructor
  · rintro ⟨p, ⟨c, hc, hp⟩, ha⟩
    obtain ⟨-, -, seg, hseg, hcovers, -⟩ := commandPiece_some (hbounded c hc) hp
    exact ⟨seg, ⟨c, hc, hseg⟩, (hcovers a).mp ha⟩
  · rintro ⟨seg, ⟨c, hc, hseg⟩, ha⟩
    cases hp : commandPiece file useSections c with
    | none =>
        exact absurd ha (commandPiece_none (hbounded c hc) (haccepts c hc) hp hseg)
    | some p =>
        obtain ⟨-, -, seg', hseg', hcovers, -⟩ :=
          commandPiece_some (hbounded c hc) hp
        cases hseg.symm.trans hseg'
        exact ⟨p, ⟨c, hc, hp⟩, (hcovers a).mpr ha⟩

/-- What is copied comes from the file. -/
theorem byteAt_in_file {seg : Segment} (hbounded : CommandBounded file cmd)
    (haccepts : Accepts file flen useSections cmd)
    (hseg : segmentAt file cmd = some seg) (ha : seg.Covers useSections a) :
    seg.fileoff + (a - seg.vmaddr) < flen := by
  obtain ⟨r, hr⟩ := haccepts.range_ok seg hseg
  have hrange : getMappedSegmentRange file useSections cmd = .ok r := by
    rw [getMappedSegmentRange, hseg]
    exact hr
  have hspec :=
    segmentRange_spec (inWord_of_segmentAt hseg) (hbounded seg hseg) hr
  have ha := (hspec.covers_iff a).mp ha
  have hsize : r.size ≠ 0 := by omega
  obtain ⟨hle, hoff⟩ := hspec.off_eq hsize
  have hin := haccepts.in_file r hrange hsize
  omega

/-! ## The output -/

/-- The load commands of the file are `cs`, and no segment wraps. -/
structure WellFormed (file : ByteMemory) (cs : List ℕ) : Prop where
  commands : Commands file (commandsEnd file) (headerSize file) cs
  bounded : ∀ seg ∈ segments file cs, seg.Bounded

theorem WellFormed.commandBounded (hwf : WellFormed file cs) :
    ∀ c ∈ cs, CommandBounded file c :=
  fun c hc seg hseg =>
    hwf.bounded seg (List.mem_filterMap.mpr ⟨c, hc, hseg⟩)

/-- What the two passes have done where the tool writes an image. -/
theorem passes_of_vmacho {malloc : ℕ → Bool} {out : List UInt8}
    (hcs : Commands file (commandsEnd file) (headerSize file) cs)
    (hok : vmacho malloc fuel useSections file flen = .ok out) :
    ∃ lowest highest mem,
      cs.foldlM (rangeCommand file flen useSections (commandsEnd file))
        (2 ^ 64 - 1, 0) = .ok (lowest, highest) ∧
      ¬ highest < lowest ∧
      cs.foldlM (copyCommand file useSections lowest) (fun _ => 0) = .ok mem ∧
      out = mem.bytesAt 0 (highest - lowest) := by
  unfold vmacho at hok
  split at hok
  · cases hok
  split at hok
  · cases hok
  split at hok
  · cases hok
  split at hok
  · cases hok
  obtain ⟨⟨lowest, highest⟩, hrange, hok⟩ := except_bind_eq_ok.mp hok
  simp only at hok
  split at hok
  · cases hok
  · rename_i hlayout
    split at hok
    · cases hok
    · obtain ⟨mem, hcopy, hout⟩ := except_bind_eq_ok.mp hok
      cases hout
      exact ⟨lowest, highest, mem, forCommands_ok hcs hrange, hlayout,
        forCommands_ok hcs hcopy, rfl⟩

/-- The output goes from the lowest to the highest address that a segment covers,
and every byte is the one that the last segment to cover its address has in the
file, or 0. -/
theorem vmacho_image {malloc : ℕ → Bool} {out : List UInt8}
    (hwf : WellFormed file cs)
    (hok : vmacho malloc fuel useSections file flen = .ok out) :
    ∃ lowest highest,
      IsLeast {a | ∃ seg ∈ segments file cs, seg.Covers useSections a} lowest ∧
      IsGreatest {a | ∃ seg ∈ segments file cs, seg.Covers useSections a}
        highest ∧
      out.length = highest + 1 - lowest ∧
      (∀ a, lowest ≤ a → a ≤ highest → out[a - lowest]? =
        some (imageByte file useSections (segments file cs) a)) ∧
      ∀ seg ∈ segments file cs, ∀ a, seg.Covers useSections a →
        seg.fileoff + (a - seg.vmaddr) < flen := by
  obtain ⟨lowest, highest, mem, hrange, hlayout, hcopy, rfl⟩ :=
    passes_of_vmacho hwf.commands hok
  have hbounded := hwf.commandBounded
  obtain ⟨haccepts, hextent⟩ := rangeCommands_ok hbounded hrange
  have hpieces : ∀ p ∈ commandPieces file useSections cs,
      p.start < p.stop ∧ p.stop ≤ 2 ^ 64 - 1 := by
    intro p hp
    obtain ⟨c, hc, hp⟩ := List.mem_filterMap.mp hp
    have hspec := commandPiece_some (hbounded c hc) hp
    exact ⟨hspec.1, hspec.2.1⟩
  have hcovered := Piece.extent_covered hpieces
  rw [← hextent, covered_commandPieces hbounded haccepts] at hcovered
  obtain ⟨hlt, hleast, hgreatest⟩ := hcovered hlayout (by decide)
  simp only at hlt hleast hgreatest
  have hlowest : ∀ p ∈ commandPieces file useSections cs, lowest ≤ p.start := by
    intro p hp
    have hin := extent_le_of_mem (r := (2 ^ 64 - 1, 0))
      (List.mem_map_of_mem (f := Piece.bounds) hp)
    rw [← hextent] at hin
    exact hin.1
  have hmem := copyCommands_ok (f := fun _ => 0) hbounded hlowest
    (fun _ _ => rfl) hcopy
  refine ⟨lowest, highest - 1, hleast, hgreatest, ?_, fun a hlo hhi => ?_, ?_⟩
  · rw [ByteMemory.length_bytesAt]
    omega
  · have hin : a - lowest < (mem.bytesAt 0 (highest - lowest)).length := by
      rw [ByteMemory.length_bytesAt]
      omega
    rw [List.getElem?_eq_getElem hin, ByteMemory.getElem_bytesAt, Nat.zero_add,
      hmem a hlo, Piece.layAll_apply, last_commandPieces hbounded haccepts]
  · intro seg hseg a ha
    obtain ⟨c, hc, hseg⟩ := List.mem_filterMap.mp hseg
    exact byteAt_in_file (hbounded c hc) (haccepts c hc) hseg ha

theorem rangeCommand_ne_outOfFuel :
    rangeCommand file flen useSections stop range cmd ≠ .error .outOfFuel := by
  unfold rangeCommand
  split
  · nofun
  split
  · nofun
  · nofun
  · split
    · nofun
    · simp only
      split <;> nofun

theorem copyCommand_ne_outOfFuel :
    copyCommand file useSections lowest mem cmd ≠ .error .outOfFuel := by
  unfold copyCommand
  split
  · nofun
  · nofun
  · split <;> nofun

/-- As many rounds as there are load commands are enough. -/
theorem vmacho_ne_outOfFuel {malloc : ℕ → Bool}
    (hcs : Commands file (commandsEnd file) (headerSize file) cs)
    (hfuel : cs.length < fuel) :
    vmacho malloc fuel useSections file flen ≠ .error .outOfFuel := by
  have hrange : ∀ range, forCommands file (commandsEnd file)
      (rangeCommand file flen useSections (commandsEnd file)) fuel
      (headerSize file) range ≠ .error .outOfFuel := by
    intro range h
    rw [forCommands_eq hcs hfuel] at h
    exact foldlM_error (E := fun e => e ≠ .outOfFuel)
      (fun _ _ _ he heq => rangeCommand_ne_outOfFuel (heq ▸ he)) h rfl
  have hcopy : ∀ lowest mem, forCommands file (commandsEnd file)
      (copyCommand file useSections lowest) fuel (headerSize file) mem ≠
        .error .outOfFuel := by
    intro lowest mem h
    rw [forCommands_eq hcs hfuel] at h
    exact foldlM_error (E := fun e => e ≠ .outOfFuel)
      (fun _ _ _ he heq => copyCommand_ne_outOfFuel (heq ▸ he)) h rfl
  intro h
  unfold vmacho at h
  split at h
  · cases h
  split at h
  · cases h
  split at h
  · cases h
  split at h
  · cases h
  rcases except_bind_eq_error.mp h with h | ⟨⟨lowest, highest⟩, -, h⟩
  · exact hrange _ h
  · simp only at h
    split at h
    · cases h
    · split at h
      · cases h
      · rcases except_bind_eq_error.mp h with h | ⟨_, -, h⟩
        · exact hcopy _ _ h
        · cases h

/-- A segment command without sections, at `cmd`. -/
def sampleSegment (m : ByteMemory) (cmd : ℕ)
    (vmaddr fileoff filesize : UInt8) : ByteMemory :=
  ((((m.write cmd [0x19]).write (cmd + 4) [72]).write (cmd + 24)
    [vmaddr]).write (cmd + 40) [fileoff]).write (cmd + 48) [filesize]

/-- A file of 176 bytes with two segments that overlap. -/
def sampleMachO : ByteMemory :=
  let header :=
    (ByteMemory.write (fun _ => 0) 0 [0xcf, 0xfa, 0xed, 0xfe]).write 20 [144]
  sampleSegment (sampleSegment header 32 0x10 0 4) 104 0x12 20 4

theorem wellFormed_sampleMachO : WellFormed sampleMachO [32, 104] := by
  have hfirst : 32 + cmdSize sampleMachO 32 = 104 := by decide +kernel
  have hsecond : 104 + cmdSize sampleMachO 104 = 176 := by decide +kernel
  have hstart : headerSize sampleMachO = 32 := by decide +kernel
  have hstop : commandsEnd sampleMachO = 176 := by decide +kernel
  constructor
  · rw [hstart, hstop]
    refine .cons (by decide) ?_
    rw [hfirst]
    refine .cons (by decide) ?_
    rw [hsecond]
    exact .nil (by decide)
  · decide +kernel

theorem vmacho_image_sampleMachO : ∃ lowest highest,
    IsLeast {a | ∃ seg ∈ segments sampleMachO [32, 104], seg.Covers false a}
      lowest ∧
    IsGreatest {a | ∃ seg ∈ segments sampleMachO [32, 104], seg.Covers false a}
      highest ∧
    6 = highest + 1 - lowest := by
  have hok : vmacho (fun _ => true) 3 false sampleMachO 176 =
      .ok [0xcf, 0xfa, 144, 0, 0, 0] := by
    decide +kernel
  obtain ⟨lowest, highest, hleast, hgreatest, hlength, -, -⟩ :=
    vmacho_image wellFormed_sampleMachO hok
  exact ⟨lowest, highest, hleast, hgreatest, hlength⟩

end PongoOS
