import PongoOS.Tools.VmachoImage

/-!
# The loops of `vmacho`

Both loops go from a load command to the next one by the size that the command
has for itself.  The first loop goes on behind a command only if it accepts what
the command says, but it accepts a size of 0, and then never ends.
-/

namespace PongoOS

open MachO

/-! ## Commands that a loop comes to -/

/-- A loop that starts at a command and goes on behind those in `accepts` comes
to `c`. -/
inductive Reached (file : ByteMemory) (stop : ℕ) (accepts : ℕ → Prop) :
    ℕ → ℕ → Prop where
  | here {c : ℕ} (h : c < stop) : Reached file stop accepts c c
  | next {cmd c : ℕ} (h : cmd < stop) (haccepts : accepts cmd)
      (hrest : Reached file stop accepts (cmd + cmdSize file cmd) c) :
      Reached file stop accepts cmd c

section Loop

variable {file : ByteMemory} {stop cmd c fuel : ℕ} {accepts : ℕ → Prop}
  {cs : List ℕ} {σ : Type} {body : σ → ℕ → Except VmachoError σ} {s s' : σ}

theorem Reached.mem_commands (h : Reached file stop accepts cmd c)
    (hcs : Commands file stop cmd cs) : c ∈ cs := by
  induction h generalizing cs with
  | here hlt =>
      cases hcs with
      | nil hstop => exact absurd hlt (Nat.not_lt.mpr hstop)
      | cons _ _ => exact List.mem_cons_self
  | next hlt _ _ ih =>
      cases hcs with
      | nil hstop => exact absurd hlt (Nat.not_lt.mpr hstop)
      | cons _ hrest => exact List.mem_cons_of_mem _ (ih hrest)

/-- A loop that goes on behind every command comes to all of them. -/
theorem reached_of_mem (hcs : Commands file stop cmd cs)
    (haccepts : ∀ d ∈ cs, accepts d) (hc : c ∈ cs) :
    Reached file stop accepts cmd c := by
  induction hcs with
  | nil _ => cases hc
  | cons hlt _ ih =>
      rcases List.mem_cons.mp hc with rfl | hc
      · exact .here hlt
      · exact .next hlt (haccepts _ List.mem_cons_self)
          (ih (fun d hd => haccepts d (List.mem_cons_of_mem _ hd)) hc)

/-- A loop that has ended has gone through the commands. -/
theorem commands_of_forCommands
    (h : forCommands file stop body fuel cmd s = .ok s') :
    ∃ cs, Commands file stop cmd cs ∧ cs.length < fuel := by
  induction fuel generalizing cmd s with
  | zero => cases h
  | succ fuel ih =>
      by_cases hstop : stop ≤ cmd
      · exact ⟨[], .nil hstop, Nat.succ_pos fuel⟩
      · rw [forCommands, if_neg hstop] at h
        obtain ⟨s₁, -, hrest⟩ := except_bind_eq_ok.mp h
        obtain ⟨cs, hcs, hlength⟩ := ih hrest
        exact ⟨cmd :: cs, .cons (Nat.lt_of_not_le hstop) hcs,
          Nat.succ_lt_succ hlength⟩

/-- The loop stays at a command without a size. -/
theorem forCommands_stuck (hbody : ∀ s, ∃ s', body s cmd = .ok s')
    (hlt : cmd < stop) (hzero : cmdSize file cmd = 0) :
    forCommands file stop body fuel cmd s = .error .outOfFuel := by
  induction fuel generalizing s with
  | zero => rfl
  | succ fuel ih =>
      obtain ⟨s₁, hfirst⟩ := hbody s
      rw [forCommands, if_neg (Nat.not_le_of_lt hlt), hfirst, except_ok_bind,
        hzero, Nat.add_zero]
      exact ih

theorem Reached.stuck (h : Reached file stop accepts cmd c)
    (hbody : ∀ d, accepts d → ∀ s, ∃ s', body s d = .ok s') (hc : accepts c)
    (hzero : cmdSize file c = 0) :
    forCommands file stop body fuel cmd s = .error .outOfFuel := by
  induction h generalizing fuel s with
  | here hlt => exact forCommands_stuck (hbody _ hc) hlt hzero
  | next hlt haccepts _ ih =>
      cases fuel with
      | zero => rfl
      | succ fuel =>
          obtain ⟨s₁, hfirst⟩ := hbody _ haccepts s
          rw [forCommands, if_neg (Nat.not_le_of_lt hlt), hfirst,
            except_ok_bind]
          exact ih hc hzero

/-- Where every command has a size, what is left of the file gets shorter. -/
theorem forCommands_ne_outOfFuel
    (hbody : ∀ s d s', body s d = .ok s' → accepts d)
    (hstop : ∀ s d, body s d ≠ .error .outOfFuel)
    (hsize : ∀ d, Reached file stop accepts cmd d → accepts d →
      cmdSize file d ≠ 0)
    (hfuel : stop - cmd < fuel) :
    forCommands file stop body fuel cmd s ≠ .error .outOfFuel := by
  induction fuel generalizing cmd s with
  | zero => cases hfuel
  | succ fuel ih =>
      intro h
      by_cases hend : stop ≤ cmd
      · rw [forCommands, if_pos hend] at h
        cases h
      · rw [forCommands, if_neg hend] at h
        rcases except_bind_eq_error.mp h with hfirst | ⟨s₁, hfirst, hrest⟩
        · exact hstop s cmd hfirst
        · have hlt := Nat.lt_of_not_le hend
          have haccepts := hbody s cmd s₁ hfirst
          have hpos := hsize cmd (.here hlt) haccepts
          exact ih (fun d hd => hsize d (.next hlt haccepts hd)) (by omega)
            hrest

end Loop

/-! ## What the first loop accepts -/

/-- The result of `get_mapped_segment_range` is no error, and what it maps is in
the file. -/
def MapsWithin (flen : ℕ) : Except ℕ MappedRange → Prop
  | .error r => r = 1
  | .ok r => r.size = 0 ∨
      (r.off + r.size) % 2 ^ 64 ≤ flen ∧ r.off ≤ (r.off + r.size) % 2 ^ 64

instance (flen : ℕ) (x : Except ℕ MappedRange) : Decidable (MapsWithin flen x) :=
  match x with
  | .error _ => inferInstanceAs (Decidable (_ = _))
  | .ok _ => inferInstanceAs (Decidable (_ ∨ _))

/-- The first loop goes on behind the command. -/
structure RangeAccepts (file : ByteMemory) (flen : ℕ) (useSections : Bool)
    (cmd : ℕ) : Prop where
  header_end : cmd + 8 ≤ commandsEnd file
  command_end : cmd + cmdSize file cmd ≤ commandsEnd file
  maps : MapsWithin flen (getMappedSegmentRange file useSections cmd)

section Accepts

variable {file : ByteMemory} {flen cmd : ℕ} {useSections : Bool}

theorem rangeCommand_ok_iff (range : ℕ × ℕ) :
    (∃ range', rangeCommand file flen useSections (commandsEnd file) range
        cmd = .ok range') ↔ RangeAccepts file flen useSections cmd := by
  unfold rangeCommand
  by_cases hend : commandsEnd file < cmd + 8 ∨
      commandsEnd file < cmd + cmdSize file cmd
  · rw [if_pos hend]
    refine iff_of_false (fun ⟨_, h⟩ => by cases h) fun h => ?_
    have h8 := h.header_end
    have hsize := h.command_end
    omega
  rw [if_neg hend]
  push Not at hend
  have hiff : RangeAccepts file flen useSections cmd ↔
      MapsWithin flen (getMappedSegmentRange file useSections cmd) :=
    ⟨fun h => h.maps, fun h => ⟨hend.1, hend.2, h⟩⟩
  rw [hiff]
  split
  · rename_i heq
    rw [heq]
    exact ⟨fun _ => rfl, fun _ => ⟨_, rfl⟩⟩
  · rename_i r hne heq
    rw [heq]
    refine ⟨?_, fun h => absurd h hne⟩
    rintro ⟨_, h⟩
    cases h
  · rename_i vmaddr fileoff size heq
    rw [heq]
    by_cases hsize : size = 0
    · rw [if_pos hsize]
      exact ⟨fun _ => .inl hsize, fun _ => ⟨_, rfl⟩⟩
    · simp only [if_neg hsize]
      split
      · rename_i hbad
        refine iff_of_false (fun ⟨_, h⟩ => by cases h) fun h => ?_
        rcases h with hzero | ⟨hle, hoff⟩
        · exact hsize hzero
        · dsimp only at hle hoff
          omega
      · rename_i hgood
        push Not at hgood
        exact ⟨fun _ => .inr hgood, fun _ => ⟨_, rfl⟩⟩

/-- The second loop goes on behind the command as well. -/
theorem RangeAccepts.copyCommand_ok (h : RangeAccepts file flen useSections cmd)
    (lowest : ℕ) (mem : ByteMemory) :
    ∃ mem', copyCommand file useSections lowest mem cmd = .ok mem' := by
  have hmaps := h.maps
  unfold copyCommand
  split
  · exact ⟨_, rfl⟩
  · rename_i r hne heq
    rw [heq] at hmaps
    exact absurd hmaps hne
  · split
    · exact ⟨_, rfl⟩
    · exact ⟨_, rfl⟩

end Accepts

/-! ## Termination -/

/-- The checks of the header. -/
structure PassesHeader (file : ByteMemory) (flen : ℕ) : Prop where
  magic_end : 4 ≤ flen
  magic : file.u32 0 = magic32 ∨ file.u32 0 = magic64
  commands : commandsEnd file ≤ flen

/-- The commands that the first loop comes to. -/
def RangeReached (file : ByteMemory) (flen : ℕ) (useSections : Bool) (c : ℕ) :
    Prop :=
  Reached file (commandsEnd file) (RangeAccepts file flen useSections)
    (headerSize file) c

/-- Both loops end, whichever allocations succeed. -/
def VmachoTerminates (useSections : Bool) (file : ByteMemory) (flen : ℕ) :
    Prop :=
  ∃ bound, ∀ fuel, bound ≤ fuel → ∀ malloc,
    vmacho malloc fuel useSections file flen ≠ .error .outOfFuel

section Termination

variable {file : ByteMemory} {flen : ℕ} {useSections : Bool}

theorem PassesHeader.vmacho_eq (h : PassesHeader file flen)
    {malloc : ℕ → Bool} (hmalloc : malloc flen = true) (fuel : ℕ) :
    vmacho malloc fuel useSections file flen = (do
      let (lowest, highest) ← forCommands file (commandsEnd file)
        (rangeCommand file flen useSections (commandsEnd file)) fuel
        (headerSize file) (2 ^ 64 - 1, 0)
      if highest < lowest then
        .error (.log "Bad memory layout, lowest: 0x%llx, highest: 0x%llx"
          [lowest, highest])
      else if ¬ malloc (highest - lowest) then .error (.log "malloc" [])
      else do
        let mem ← forCommands file (commandsEnd file)
          (copyCommand file useSections lowest) fuel (headerSize file)
          fun _ => 0
        pure (mem.bytesAt 0 (highest - lowest))) := by
  have hmagic : ¬ (file.u32 0 ≠ magic32 ∧ file.u32 0 ≠ magic64) := by
    rcases h.magic with heq | heq
    · exact fun hne => hne.1 heq
    · exact fun hne => hne.2 heq
  rw [vmacho, if_neg (Nat.not_lt.mpr h.magic_end),
    if_neg (not_not_intro hmalloc), if_neg hmagic,
    if_neg (Nat.not_lt.mpr h.commands)]

/-- A command without a size that the first loop accepts is never left. -/
theorem PassesHeader.not_terminates (h : PassesHeader file flen) {c : ℕ}
    (hreached : RangeReached file flen useSections c)
    (haccepts : RangeAccepts file flen useSections c)
    (hzero : cmdSize file c = 0) : ¬ VmachoTerminates useSections file flen := by
  rintro ⟨bound, hbound⟩
  refine hbound bound le_rfl (fun _ => true) ?_
  rw [h.vmacho_eq rfl, hreached.stuck
    (fun d hd range => (rangeCommand_ok_iff range).mpr hd) haccepts hzero]
  rfl

/-- The loops end exactly if every command that the first one comes to and
accepts has a size. -/
theorem vmachoTerminates_iff (h : PassesHeader file flen) :
    VmachoTerminates useSections file flen ↔
      ∀ c, RangeReached file flen useSections c →
        RangeAccepts file flen useSections c → cmdSize file c ≠ 0 := by
  constructor
  · intro hterminates c hreached haccepts hzero
    exact h.not_terminates hreached haccepts hzero hterminates
  · intro hsize
    refine ⟨commandsEnd file + 1, fun fuel hfuel malloc hrun => ?_⟩
    have hrange : ∀ range, forCommands file (commandsEnd file)
        (rangeCommand file flen useSections (commandsEnd file)) fuel
        (headerSize file) range ≠ .error .outOfFuel := by
      intro range
      refine forCommands_ne_outOfFuel
        (fun range d range' hd => (rangeCommand_ok_iff range).mp ⟨range', hd⟩)
        (fun _ _ => rangeCommand_ne_outOfFuel) hsize ?_
      omega
    by_cases hmalloc : malloc flen = true
    · rw [h.vmacho_eq hmalloc] at hrun
      rcases except_bind_eq_error.mp hrun with hfirst | ⟨range, hfirst, -⟩
      · exact hrange _ hfirst
      · obtain ⟨cs, hcs, hlength⟩ := commands_of_forCommands hfirst
        rw [← h.vmacho_eq hmalloc] at hrun
        exact vmacho_ne_outOfFuel hcs hlength hrun
    · rw [vmacho, if_neg (Nat.not_lt.mpr h.magic_end), if_pos hmalloc] at hrun
      cases hrun

theorem passesHeader_sampleMachO : PassesHeader sampleMachO 176 :=
  ⟨by decide, .inr (by decide +kernel), by decide +kernel⟩

theorem vmachoTerminates_sampleMachO :
    VmachoTerminates true sampleMachO 176 := by
  refine (vmachoTerminates_iff passesHeader_sampleMachO).mpr ?_
  intro c hreached _
  have hc : c ∈ [32, 104] :=
    hreached.mem_commands wellFormed_sampleMachO.commands
  have hsizes : ∀ c ∈ [32, 104], cmdSize sampleMachO c ≠ 0 := by
    decide +kernel
  exact hsizes c hc

/-- A file of 40 bytes with one load command, whose fields are 0. -/
def sizelessMachO : ByteMemory :=
  (ByteMemory.write (fun _ => 0) 0 [0xcf, 0xfa, 0xed, 0xfe]).write 20 [8]

theorem sizeless_command_never_ends :
    PassesHeader sizelessMachO 40 ∧
      ¬ VmachoTerminates true sizelessMachO 40 := by
  have hheader : PassesHeader sizelessMachO 40 :=
    ⟨by decide, .inr (by decide +kernel), by decide +kernel⟩
  have hstart : headerSize sizelessMachO = 32 := by decide +kernel
  have hstop : commandsEnd sizelessMachO = 40 := by decide +kernel
  have hsize : cmdSize sizelessMachO 32 = 0 := by decide +kernel
  have haccepts : RangeAccepts sizelessMachO 40 true 32 := by
    refine ⟨by omega, by omega, ?_⟩
    decide +kernel
  have hreached : RangeReached sizelessMachO 40 true 32 := by
    rw [RangeReached, hstart]
    exact .here (by omega)
  exact ⟨hheader, hheader.not_terminates hreached haccepts hsize⟩

end Termination

end PongoOS
