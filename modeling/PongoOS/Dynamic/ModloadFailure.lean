import PongoOS.Dynamic.ModloadRelocated
import PongoOS.Support.Trace

/-!
# Loads that fail

Of the ways `modload_cmd` gives up on an upload, those before the allocation
leave everything but the upload's count as it was.  An external symbol without
an address is found later and ends the command at once.

Whether such a symbol is come to depends on the upload, the exports and the room
for the module: a segment that cannot be mapped and a name that cannot be read
stop the machine before.  A table of relocations may itself lie in a slot, so
that the entries are those of the image in which the slots before are filled.
-/

namespace PongoOS

open MachO

/-- The external relocation, as the image has it. -/
def externEntry (upload : ByteMemory) (dysymtab : ℕ) (image : ByteMemory)
    (i : ℕ) : Relocation :=
  readRelocation image (extreloff upload dysymtab + 8 * i)

/-- Where the name is that an external relocation asks for. -/
def externName (upload : ByteMemory) (symtab dysymtab : ℕ) (image : ByteMemory)
    (i : ℕ) : ℕ :=
  stroff upload symtab + (readNlist image (symoff upload symtab +
    16 * (externEntry upload dysymtab image i).symbolnum)).strx

/-- The string at `name` has the address `v`, or `v` is 0 and it has none. -/
def NameResolves (linker : Linker) (upload : ByteMemory) (name v : ℕ) : Prop :=
  ∃ s : CString, upload.Holds name (s.bytes ++ [0]) ∧
    Resolves linker.exports s.bytes linker.api v

section Entries

variable (linker : Linker) (upload : ByteMemory) (symtab dysymtab : ℕ)

/-- The image after the first external relocations.  All their symbols have
addresses. -/
inductive Filled (start : ByteMemory) : ℕ → ByteMemory → Prop where
  | start : Filled start 0 start
  | skip {i : ℕ} {image : ByteMemory} (h : Filled start i image)
      (hslot : ¬ IsExternSlot (externEntry upload dysymtab image i)) :
      Filled start (i + 1) image
  | fill {i v : ℕ} {image : ByteMemory} (h : Filled start i image)
      (hslot : IsExternSlot (externEntry upload dysymtab image i))
      (hv : NameResolves linker upload
        (externName upload symtab dysymtab image i) v) (hne : v ≠ 0) :
      Filled start (i + 1)
        (image.write (externEntry upload dysymtab image i).address
          (toLittleEndian 8 v))

/-- The entry is for a slot and its symbol has no address. -/
def Unresolved (image : ByteMemory) (i : ℕ) : Prop :=
  IsExternSlot (externEntry upload dysymtab image i) ∧
    NameResolves linker upload (externName upload symtab dysymtab image i) 0

end Entries

/-- The names of all symbols can be compared. -/
def NamesReadable (env : ModloadEnv) (symtab : ℕ) (loaded : ModloadImage) :
    Prop :=
  ∀ i < nsyms env.upload symtab, ∀ s, IsLooked s →
    strEqThrough (throughPages env.granule loaded.pages loaded.image env.rest)
      s.bytes (env.cursor + stroff env.upload symtab +
        (readNlist loaded.image (symoff env.upload symtab + 16 * i)).strx) ≠ none

/-- After some of the external relocations comes one without an address. -/
def LinkingFails (env : ModloadEnv) : Prop :=
  ∃ allocto symtab, IsLoaded env allocto symtab ∧
    NamesReadable env symtab (moduleLoaded env allocto) ∧
    let dysymtab := (lastDysymtab env.upload).getD env.dysymtab
    ∃ i < nextrel env.upload dysymtab, ∃ image,
      Filled env.linker env.upload symtab dysymtab
        (moduleLoaded env allocto).image i image ∧
      Unresolved env.linker env.upload symtab dysymtab image i

/-! ## Names -/

section Names

variable {linker : Linker} {upload : ByteMemory} {name v len fuel : ℕ}

theorem NameResolves.eq_ok (h : NameResolves linker upload name v) :
    ∃ bound, ∀ fuel, bound ≤ fuel → ∃ len, strlen upload fuel name = .ok len ∧
      resolveSymbol fuel linker.api linker.exports (upload.bytesAt name len) =
        .ok v := by
  obtain ⟨s, hs, hresolves⟩ := h
  obtain ⟨bound, hbound⟩ := hresolves.resolveSymbolFrom_eq
  refine ⟨max bound (s.bytes.length + 1), fun fuel hfuel => ?_⟩
  obtain ⟨hresolve, hlength⟩ := Nat.max_le.mp hfuel
  refine ⟨s.bytes.length, strlen_of_holds s hs hlength, ?_⟩
  rw [(ByteMemory.holds_append.mp hs).1]
  exact hbound fuel hresolve

end Names

/-! ## The loop over symbols -/

section Symbols

variable {virtual : ℕ → Option UInt8} {vmaBase stroff : ℕ}
  {p : ModulePointers} {nl : Nlist}

theorem exists_nameIs_iff {s : CString} {a : ℕ} :
    (∃ b, nameIs virtual s a = .ok b) ↔
      strEqThrough virtual s.bytes a ≠ none := by
  unfold nameIs
  split <;> simp_all

theorem exists_lookSymbol_iff :
    (∃ p', lookSymbol virtual vmaBase stroff p nl = .ok p') ↔
      ∀ s, IsLooked s →
        strEqThrough virtual s.bytes (vmaBase + stroff + nl.strx) ≠ none := by
  simp only [lookSymbol, Outcome.bind_eq_ok]
  constructor
  · rintro ⟨p', b₁, hentry, b₂, hmodname, b₃, hexports, -⟩ s (rfl | rfl | rfl)
    · exact exists_nameIs_iff.mp ⟨b₁, hentry⟩
    · exact exists_nameIs_iff.mp ⟨b₂, hmodname⟩
    · exact exists_nameIs_iff.mp ⟨b₃, hexports⟩
  · intro h
    obtain ⟨b₁, hentry⟩ := exists_nameIs_iff.mpr (h _ (.inl rfl))
    obtain ⟨b₂, hmodname⟩ := exists_nameIs_iff.mpr (h _ (.inr (.inl rfl)))
    obtain ⟨b₃, hexports⟩ := exists_nameIs_iff.mpr (h _ (.inr (.inr rfl)))
    exact ⟨_, b₁, hentry, b₂, hmodname, b₃, hexports, rfl⟩

/-- The loop over symbols comes to its end exactly if names can be read. -/
theorem exists_lookSymbols_iff {env : ModloadEnv} {symtab : ℕ}
    {loaded : ModloadImage} :
    (∃ p, (List.range (nsyms env.upload symtab)).foldlM
      (fun p i => lookSymbol
        (throughPages env.granule loaded.pages loaded.image env.rest)
        env.cursor (PongoOS.stroff env.upload symtab) p
        (readNlist loaded.image (symoff env.upload symtab + 16 * i)))
      ⟨env.entrypoint, 0, 0⟩ = .ok p) ↔ NamesReadable env symtab loaded := by
  have hstep := fun p i => @exists_lookSymbol_iff
    (throughPages env.granule loaded.pages loaded.image env.rest) env.cursor
    (PongoOS.stroff env.upload symtab) p
    (readNlist loaded.image (symoff env.upload symtab + 16 * i))
  refine (exists_foldlM_eq_ok_iff hstep).trans ?_
  simp only [List.mem_range, NamesReadable]

end Symbols

/-! ## The loop over external relocations -/

section Relocate

variable {fuel symtab dysymtab i : ℕ} {globals after : ModloadGlobals}
  {linker : Linker} {upload image image' start : ByteMemory} {line : String}

/-- How a relocation comes to an address. -/
theorem relocateExtern_of_slot
    (hslot : IsExternSlot (externEntry upload dysymtab image i)) :
    relocateExtern fuel globals upload symtab dysymtab image i =
      (orStop (strlen upload fuel (externName upload symtab dysymtab image i))
        >>= fun len => orStop (resolveSymbol fuel globals.linker.api
          globals.linker.exports (upload.bytesAt
            (externName upload symtab dysymtab image i) len))
        >>= fun value => if value = 0 then
          .error (.puts "[modload_macho:!] load module: linking failed" globals)
        else pure (image.write (externEntry upload dysymtab image i).address
          (toLittleEndian 8 value))) := by
  obtain ⟨hexternal, hlength⟩ := hslot
  unfold externEntry at hexternal hlength
  simp only [relocateExtern]
  rw [if_neg (by simp [hexternal, hlength])]
  rfl

theorem relocateExtern_of_not_slot
    (hslot : ¬ IsExternSlot (externEntry upload dysymtab image i)) :
    relocateExtern fuel globals upload symtab dysymtab image i = .ok image := by
  simp only [relocateExtern]
  rw [if_pos]
  · rfl
  · by_contra h
    rw [not_or, Bool.not_eq_false, not_not] at h
    exact hslot h

/-- Relocations that can be made are made. -/
theorem Filled.relocateExterns_eq
    (h : Filled linker upload symtab dysymtab start i image) :
    ∃ bound, ∀ fuel, bound ≤ fuel → ∀ globals : ModloadGlobals,
      globals.linker = linker → (List.range i).foldlM
        (relocateExtern fuel globals upload symtab dysymtab) start =
          .ok image := by
  induction h with
  | start => exact ⟨0, fun _ _ _ _ => rfl⟩
  | skip _ hslot ih =>
      obtain ⟨bound, ih⟩ := ih
      refine ⟨bound, fun fuel hfuel globals hglobals => ?_⟩
      rw [List.range_succ, List.foldlM_append, ih fuel hfuel globals hglobals,
        except_ok_bind, List.foldlM_cons, relocateExtern_of_not_slot hslot]
      rfl
  | fill _ hslot hv hne ih =>
      obtain ⟨bound, ih⟩ := ih
      obtain ⟨bound', hv⟩ := hv.eq_ok
      refine ⟨max bound bound', fun fuel hfuel globals hglobals => ?_⟩
      obtain ⟨hfuel, hfuel'⟩ := Nat.max_le.mp hfuel
      obtain ⟨len, hlen, hvalue⟩ := hv fuel hfuel'
      rw [List.range_succ, List.foldlM_append, ih fuel hfuel globals hglobals,
        except_ok_bind, List.foldlM_cons, relocateExtern_of_slot hslot, hlen,
        orStop_ok, except_ok_bind, hglobals, hvalue, orStop_ok, except_ok_bind,
        if_neg hne]
      rfl

theorem Unresolved.relocateExtern_eq
    (h : Unresolved linker upload symtab dysymtab image i) :
    ∃ bound, ∀ fuel, bound ≤ fuel → ∀ globals : ModloadGlobals,
      globals.linker = linker →
        relocateExtern fuel globals upload symtab dysymtab image i =
          .error (.puts "[modload_macho:!] load module: linking failed"
            globals) := by
  obtain ⟨hslot, hzero⟩ := h
  obtain ⟨bound, hzero⟩ := hzero.eq_ok
  refine ⟨bound, fun fuel hfuel globals hglobals => ?_⟩
  obtain ⟨len, hlen, hvalue⟩ := hzero fuel hfuel
  rw [relocateExtern_of_slot hslot, hlen, orStop_ok, except_ok_bind, hglobals,
    hvalue, orStop_ok, except_ok_bind, if_pos rfl]

end Relocate

/-! ## The command -/

section Command

variable {fuel allocto symtab : ℕ} {env : ModloadEnv} {after : ModloadGlobals}
  {line : String}

/-- A load that comes to a symbol without an address ends there, and the upload's
count is as it was. -/
theorem LinkingFails.modloadCmd_eq (h : LinkingFails env) :
    0x4000 ≤ env.recvCount ∧ ∃ fuel line after,
      modloadCmd fuel env = .error (.puts line after) ∧
        after.recvCount = env.recvCount := by
  obtain ⟨allocto, symtab, hloaded, hnames, i, hi, image, hfilled, hstop⟩ := h
  refine ⟨hloaded.recvCount_ge, ?_⟩
  obtain ⟨pointers, hlook⟩ := exists_lookSymbols_iff.mpr hnames
  obtain ⟨bound, hfirst⟩ := hfilled.relocateExterns_eq
  obtain ⟨bound', hlast⟩ := hstop.relocateExtern_eq
  obtain ⟨fuel, hfuel, hbound, hbound'⟩ :
      ∃ fuel, 2 ^ 18 < fuel ∧ bound ≤ fuel ∧ bound' ≤ fuel :=
    ⟨2 ^ 18 + 1 + bound + bound', by omega, by omega, by omega⟩
  have hrun := hloaded.modloadCmd_eq hfuel
  simp only [linkLoaded, linkModule] at hrun
  rw [hlook, orStop_ok, except_ok_bind] at hrun
  have hloop := fun globals hglobals => foldlM_range_eq_error.mpr
    ⟨i, hi, image, hfirst fuel hbound globals hglobals,
      hlast fuel hbound' globals hglobals⟩
  exact ⟨fuel, _, _,
    hrun.trans (except_bind_eq_error.mpr (.inl (hloop _ rfl))), rfl⟩

end Command

end PongoOS
