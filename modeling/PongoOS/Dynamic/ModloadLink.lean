import PongoOS.Dynamic.ModloadSegments

/-!
# Linking a module

Symbols are looked up and slots are relocated in the image.  The slots lie apart
from one another and from the tables, so that every table is read as it is in the
file, and what is added to a slot is what the segments had there.
-/

namespace PongoOS

open MachO

section Reads

variable {m m' : ByteMemory} {a b : ℕ}

theorem readNlist_congr (h : ∀ i, i < 16 → m (a + i) = m' (b + i)) :
    readNlist m a = readNlist m' b := by
  have hstrx : m.u32 a = m'.u32 b := congrArg littleEndian
    (ByteMemory.bytesAt_congr fun i hi => h i (by omega))
  have hvalue : m.u64 (a + 8) = m'.u64 (b + 8) := congrArg littleEndian
    (ByteMemory.bytesAt_congr fun i hi => by
      rw [Nat.add_assoc, Nat.add_assoc]
      exact h (8 + i) (by omega))
  rw [readNlist, readNlist, hstrx, hvalue]

theorem readRelocation_congr (h : ∀ i, i < 8 → m (a + i) = m' (b + i)) :
    readRelocation m a = readRelocation m' b := by
  have haddress : m.u32 a = m'.u32 b := congrArg littleEndian
    (ByteMemory.bytesAt_congr fun i hi => h i (by omega))
  have hinfo : m.u32 (a + 4) = m'.u32 (b + 4) := congrArg littleEndian
    (ByteMemory.bytesAt_congr fun i hi => by
      rw [Nat.add_assoc, Nat.add_assoc]
      exact h (4 + i) (by omega))
  rw [readRelocation, readRelocation, haddress, hinfo]

theorem u64_congr (h : ∀ i, i < 8 → m (a + i) = m' (b + i)) :
    m.u64 a = m'.u64 b :=
  congrArg littleEndian (ByteMemory.bytesAt_congr h)

end Reads

/-! ## Symbols -/

section Symbols

variable {virtual : ℕ → Option UInt8} {vmaBase stroff : ℕ}
  {p : ModulePointers} {nl : Nlist} {s : CString}

/-- The pointers after a symbol called `s`. -/
def ModulePointers.look (p : ModulePointers) (s : CString) (value : ℕ) :
    ModulePointers where
  entrypoint := if s = moduleEntryName then value else p.entrypoint
  modname := if s = moduleNameName then value else p.modname
  exports :=
    if s = exportedSymbolsName ∧ p.exports = 0 then value else p.exports

theorem nameIs_of_reads {a : ℕ} (h : ReadsString virtual a s) (t : CString) :
    nameIs virtual t a = .ok (decide (s = t)) := by
  rw [nameIs, h.strEqThrough t]

theorem lookSymbol_of_reads
    (h : ReadsString virtual (vmaBase + stroff + nl.strx) s) :
    lookSymbol virtual vmaBase stroff p nl =
      .ok (p.look s ((nl.value + vmaBase) % 2 ^ 64)) := by
  simp only [lookSymbol, nameIs_of_reads h, Outcome.ok_bind,
    decide_eq_true_eq]
  refine congrArg Except.ok ?_
  unfold ModulePointers.look
  split <;> split <;> split <;> simp_all

/-- One of the names that are looked up. -/
def IsLooked (s : CString) : Prop :=
  s = moduleEntryName ∨ s = moduleNameName ∨ s = exportedSymbolsName

/-- Among the first `n` symbols, those that are looked up have these values. -/
structure PointersAt (names : ℕ → CString) (value : ℕ → ℕ) (n : ℕ)
    (p : ModulePointers) : Prop where
  entrypoint : ∀ i < n, names i = moduleEntryName → p.entrypoint = value i
  modname : ∀ i < n, names i = moduleNameName → p.modname = value i
  exports : ∀ i < n, names i = exportedSymbolsName → p.exports = value i

theorem PointersAt.congr {names : ℕ → CString} {value value' : ℕ → ℕ} {n : ℕ}
    (h : PointersAt names value n p) (hvalue : ∀ i < n, value i = value' i) :
    PointersAt names value' n p := by
  constructor
  · exact fun i hi hname => (h.entrypoint i hi hname).trans (hvalue i hi)
  · exact fun i hi hname => (h.modname i hi hname).trans (hvalue i hi)
  · exact fun i hi hname => (h.exports i hi hname).trans (hvalue i hi)

theorem lookSymbols_ok (sym : ℕ → Nlist) {names : ℕ → CString} {n e : ℕ}
    (hnames : ∀ i < n,
      ReadsString virtual (vmaBase + stroff + (sym i).strx) (names i))
    (hunique : ∀ i < n, ∀ j < n, names i = names j → IsLooked (names i) →
      i = j) :
    ∃ p, (List.range n).foldlM
        (fun p i => lookSymbol virtual vmaBase stroff p (sym i)) ⟨e, 0, 0⟩ =
          .ok p ∧
      PointersAt names (fun i => ((sym i).value + vmaBase) % 2 ^ 64) n p ∧
      ((∀ i < n, names i ≠ exportedSymbolsName) → p.exports = 0) := by
  induction n with
  | zero => exact ⟨_, rfl, ⟨nofun, nofun, nofun⟩, fun _ => rfl⟩
  | succ n ih =>
      obtain ⟨p, hrun, hp, hnone⟩ := ih (fun i hi => hnames i (by omega))
        (fun i hi j hj => hunique i (by omega) j (by omega))
      refine ⟨p.look (names n) (((sym n).value + vmaBase) % 2 ^ 64), ?_, ?_, ?_⟩
      · rw [List.range_succ, List.foldlM_append, hrun, Outcome.ok_bind,
          List.foldlM_cons, lookSymbol_of_reads (hnames n (Nat.lt_succ_self n))]
        rfl
      · -- a name that was met before is not met again
        have hnew : ∀ i < n, IsLooked (names i) → names n ≠ names i :=
          fun i hi hlooked heq =>
            absurd (hunique i (by omega) n (by omega) heq.symm hlooked)
              (Nat.ne_of_lt hi)
        constructor
        · intro i hi hname
          rcases Nat.lt_succ_iff_lt_or_eq.mp hi with hlt | rfl
          · exact (if_neg (hname ▸ hnew i hlt (.inl hname))).trans
              (hp.entrypoint i hlt hname)
          · exact if_pos hname
        · intro i hi hname
          rcases Nat.lt_succ_iff_lt_or_eq.mp hi with hlt | rfl
          · exact (if_neg (hname ▸ hnew i hlt (.inr (.inl hname)))).trans
              (hp.modname i hlt hname)
          · exact if_pos hname
        · intro i hi hname
          rcases Nat.lt_succ_iff_lt_or_eq.mp hi with hlt | rfl
          · exact (if_neg fun h => hnew i hlt (.inr (.inr hname))
              (h.1.trans hname.symm)).trans (hp.exports i hlt hname)
          · refine if_pos ⟨hname, hnone fun j hj hj' => ?_⟩
            exact hnew j hj (.inr (.inr hj')) (hname.trans hj'.symm)
      · intro hall
        exact (if_neg fun h => hall n (Nat.lt_succ_self n) h.1).trans
          (hnone fun i hi => hall i (by omega))

end Symbols

/-! ## Slots -/

section Slots

variable {image image' : ByteMemory} {a v : ℕ}

/-- Eight bytes that are written to a slot. -/
def slotPiece (a v : ℕ) : Piece UInt8 where
  start := a
  stop := a + 8
  value x := (toLittleEndian 8 v).getD (x - a) 0

theorem write_eq_lay :
    image.write a (toLittleEndian 8 v) = Piece.lay image (slotPiece a v) := by
  funext x
  rw [slotPiece, Piece.lay_mk]
  split
  · rename_i hin
    obtain ⟨i, rfl⟩ := Nat.exists_eq_add_of_le hin.1
    have hlt : i < (toLittleEndian 8 v).length := by
      rw [length_toLittleEndian]
      omega
    rw [ByteMemory.write_apply hlt, Nat.add_sub_cancel_left,
      List.getD_eq_getElem?_getD, List.getElem?_eq_getElem hlt]
    rfl
  · rename_i hout
    exact ByteMemory.write_apply_of_not (by rwa [length_toLittleEndian])

/-- What is read from a slot behind which nothing was written to it. -/
theorem u64_of_slotPiece
    (h : ∀ i, i < 8 → image (a + i) = (slotPiece a v).value (a + i)) :
    image.u64 a = v % 2 ^ 64 := by
  have hbytes : image.bytesAt a 8 = toLittleEndian 8 v := by
    refine List.ext_getElem ?_ fun i hi hi' => ?_
    · rw [ByteMemory.length_bytesAt, length_toLittleEndian]
    · rw [ByteMemory.length_bytesAt] at hi
      rw [ByteMemory.getElem_bytesAt, h i hi]
      simp only [slotPiece]
      rw [Nat.add_sub_cancel_left, List.getD_eq_getElem?_getD,
        List.getElem?_eq_getElem hi']
      rfl
  have hpow : (256 : ℕ) ^ 8 = 2 ^ 64 := by decide
  rw [ByteMemory.u64, hbytes, littleEndian_toLittleEndian, hpow]

/-- Two slots do not overlap. -/
def SlotsApart (a b : ℕ) : Prop := a + 8 ≤ b ∨ b + 8 ≤ a

theorem slotPiece_apart {b w : ℕ} (h : SlotsApart a b) :
    (slotPiece a v).Apart (slotPiece b w) := by
  rintro x ⟨hx, hx'⟩
  simp only [Piece.Covers, slotPiece] at hx hx'
  unfold SlotsApart at h
  omega

end Slots

/-! ## Relocations -/

/-- The tables that are read while slots are written: where each starts and how
long it is. -/
def moduleTables (upload : ByteMemory) (symtab dysymtab : ℕ) : List (ℕ × ℕ) :=
  [(symoff upload symtab, 16 * nsyms upload symtab),
    (extreloff upload dysymtab, 8 * nextrel upload dysymtab),
    (locreloff upload dysymtab, 8 * nlocrel upload dysymtab)]

/-- The image has the bytes of the file in these tables. -/
def Intact (upload : ByteMemory) (tables : List (ℕ × ℕ))
    (image : ByteMemory) : Prop :=
  ∀ t ∈ tables, ∀ k, k < t.2 → image (t.1 + k) = upload (t.1 + k)

/-- The slot meets none of the tables. -/
def OutsideTables (tables : List (ℕ × ℕ)) (a : ℕ) : Prop :=
  ∀ t ∈ tables, a + 8 ≤ t.1 ∨ t.1 + t.2 ≤ a

def externAt (upload : ByteMemory) (dysymtab i : ℕ) : Relocation :=
  readRelocation upload (extreloff upload dysymtab + 8 * i)

def localAt (upload : ByteMemory) (dysymtab i : ℕ) : Relocation :=
  readRelocation upload (locreloff upload dysymtab + 8 * i)

def symbolAt (upload : ByteMemory) (symtab i : ℕ) : Nlist :=
  readNlist upload (symoff upload symtab + 16 * i)

/-- The entry asks for the address of a symbol in an eight-byte slot. -/
def IsExternSlot (r : Relocation) : Prop := r.isExtern = true ∧ r.length = 3

/-- The entry asks for an eight-byte slot to be shifted. -/
def IsLocalSlot (r : Relocation) : Prop := r.isExtern = false ∧ r.length = 3

instance (r : Relocation) : Decidable (IsExternSlot r) :=
  inferInstanceAs (Decidable (_ ∧ _))

instance (r : Relocation) : Decidable (IsLocalSlot r) :=
  inferInstanceAs (Decidable (_ ∧ _))

section Relocate

variable {upload image image' : ByteMemory} {tables : List (ℕ × ℕ)} {a v i fuel : ℕ}
  {linker : Linker} {globals : ModloadGlobals} {vmaBase base symtab dysymtab : ℕ}
  {names : ℕ → CString} {resolved : ℕ → ℕ} {is : List ℕ}

theorem OutsideTables.not_covers (h : OutsideTables tables a) {t : ℕ × ℕ}
    (ht : t ∈ tables) {k : ℕ} (hk : k < t.2) :
    ¬ (slotPiece a v).Covers (t.1 + k) := by
  intro hcovers
  have hcovers : a ≤ t.1 + k ∧ t.1 + k < a + 8 := hcovers
  have hout := h t ht
  omega

theorem Intact.lay_slotPiece (h : Intact upload tables image)
    (hout : OutsideTables tables a) :
    Intact upload tables (Piece.lay image (slotPiece a v)) := by
  intro t ht k hk
  rw [Piece.lay_of_not_covers (hout.not_covers ht hk), h t ht k hk]

theorem Intact.readSymbol
    (h : Intact upload (moduleTables upload symtab dysymtab) image)
    (hi : i < nsyms upload symtab) :
    readNlist image (symoff upload symtab + 16 * i) =
      symbolAt upload symtab i := by
  refine readNlist_congr fun k hk => ?_
  rw [Nat.add_assoc]
  exact h (symoff upload symtab, 16 * nsyms upload symtab)
    (by simp [moduleTables]) _ (by simp only; omega)

theorem Intact.readExtern
    (h : Intact upload (moduleTables upload symtab dysymtab) image)
    (hi : i < nextrel upload dysymtab) :
    readRelocation image (extreloff upload dysymtab + 8 * i) =
      externAt upload dysymtab i := by
  refine readRelocation_congr fun k hk => ?_
  rw [Nat.add_assoc]
  exact h (extreloff upload dysymtab, 8 * nextrel upload dysymtab)
    (by simp [moduleTables]) _ (by simp only; omega)

theorem Intact.readLocal
    (h : Intact upload (moduleTables upload symtab dysymtab) image)
    (hi : i < nlocrel upload dysymtab) :
    readRelocation image (locreloff upload dysymtab + 8 * i) =
      localAt upload dysymtab i := by
  refine readRelocation_congr fun k hk => ?_
  rw [Nat.add_assoc]
  exact h (locreloff upload dysymtab, 8 * nlocrel upload dysymtab)
    (by simp [moduleTables]) _ (by simp only; omega)

/-- The symbol of the entry has a name that resolves to an address. -/
structure ExternResolves (fuel : ℕ) (linker : Linker) (upload : ByteMemory)
    (symtab : ℕ) (names : ℕ → CString) (resolved : ℕ → ℕ) (r : Relocation) :
    Prop where
  symbolnum_lt : r.symbolnum < nsyms upload symtab
  name : upload.Holds
    (stroff upload symtab + (symbolAt upload symtab r.symbolnum).strx)
    ((names r.symbolnum).bytes ++ [0])
  name_length : (names r.symbolnum).bytes.length < fuel
  resolve : resolveSymbol fuel linker.api linker.exports
    (names r.symbolnum).bytes = .ok (resolved r.symbolnum)
  resolved_ne_zero : resolved r.symbolnum ≠ 0

/-- What the external entries lay over the image. -/
def externPieces (resolved : ℕ → ℕ) (rs : List Relocation) :
    List (Piece UInt8) :=
  (rs.filter fun r => IsExternSlot r).map fun r =>
    slotPiece r.address (resolved r.symbolnum)

theorem Intact.layAll_externPieces {rs : List Relocation}
    (h : Intact upload tables image)
    (hout : ∀ r ∈ rs, IsExternSlot r → OutsideTables tables r.address) :
    Intact upload tables (Piece.layAll image (externPieces resolved rs)) := by
  intro t ht k hk
  rw [Piece.layAll_of_not_covers, h t ht k hk]
  intro p hp
  obtain ⟨r, hr, rfl⟩ := List.mem_map.mp hp
  have hr := List.mem_filter.mp hr
  exact (hout r hr.1 (by simpa using hr.2)).not_covers ht hk

theorem relocateExtern_ok
    (h : Intact upload (moduleTables upload symtab dysymtab) image)
    (hi : i < nextrel upload dysymtab)
    (hresolves : IsExternSlot (externAt upload dysymtab i) →
      ExternResolves fuel globals.linker upload symtab names resolved
        (externAt upload dysymtab i)) :
    relocateExtern fuel globals upload symtab dysymtab image i =
      .ok (Piece.layAll image
        (externPieces resolved [externAt upload dysymtab i])) := by
  simp only [relocateExtern, h.readExtern hi]
  generalize externAt upload dysymtab i = r at *
  by_cases hslot : IsExternSlot r
  · have hr := hresolves hslot
    have hnot : ¬ (r.isExtern = false ∨ r.length ≠ 3) := by
      rintro (hfalse | hne)
      · exact Bool.noConfusion (hslot.1.symm.trans hfalse)
      · exact hne hslot.2
    have hbytes : upload.bytesAt (stroff upload symtab +
        (symbolAt upload symtab r.symbolnum).strx)
          (names r.symbolnum).bytes.length = (names r.symbolnum).bytes :=
      (ByteMemory.holds_append.mp hr.name).1
    rw [if_neg hnot, h.readSymbol hr.symbolnum_lt,
      strlen_of_holds _ hr.name hr.name_length]
    simp only [orStop, bind, Except.bind, hbytes, hr.resolve,
      if_neg hr.resolved_ne_zero, externPieces, List.filter_cons_of_pos,
      hslot, decide_true, List.filter_nil, List.map_cons, List.map_nil,
      Piece.layAll_cons, Piece.layAll_nil, write_eq_lay]
    rfl
  · have hskip : r.isExtern = false ∨ r.length ≠ 3 := by
      by_contra hnot
      push Not at hnot
      exact hslot ⟨by simpa using hnot.1, hnot.2⟩
    rw [if_pos hskip]
    simp [externPieces, hslot]
    rfl

theorem externPieces_cons {r : Relocation} {rs : List Relocation} :
    externPieces resolved (r :: rs) =
      externPieces resolved [r] ++ externPieces resolved rs := by
  unfold externPieces
  by_cases hslot : IsExternSlot r <;> simp [hslot]

theorem relocateExterns_ok
    (h : Intact upload (moduleTables upload symtab dysymtab) image)
    (his : ∀ i ∈ is, i < nextrel upload dysymtab)
    (hresolves : ∀ i ∈ is, IsExternSlot (externAt upload dysymtab i) →
      ExternResolves fuel globals.linker upload symtab names resolved
        (externAt upload dysymtab i))
    (hout : ∀ i ∈ is, IsExternSlot (externAt upload dysymtab i) →
      OutsideTables (moduleTables upload symtab dysymtab)
        (externAt upload dysymtab i).address) :
    is.foldlM (relocateExtern fuel globals upload symtab dysymtab)
        image =
      .ok (Piece.layAll image
        (externPieces resolved (is.map (externAt upload dysymtab)))) := by
  induction is generalizing image with
  | nil => rfl
  | cons i is ih =>
      have hfirst := relocateExtern_ok h
        (his i List.mem_cons_self) (hresolves i List.mem_cons_self)
      rw [List.foldlM_cons, List.map_cons, externPieces_cons,
        Piece.layAll_append, hfirst]
      refine ih ?_ (fun j hj => his j (List.mem_cons_of_mem _ hj))
        (fun j hj => hresolves j (List.mem_cons_of_mem _ hj))
        (fun j hj => hout j (List.mem_cons_of_mem _ hj))
      by_cases hslot : IsExternSlot (externAt upload dysymtab i)
      · simpa [externPieces, hslot] using
          h.lay_slotPiece (hout i List.mem_cons_self hslot)
      · simpa [externPieces, hslot] using h

/-- An address of the file after loading. -/
def slide (vmaBase base x : ℕ) : ℕ := (x + vmaBase + 2 ^ 64 - base) % 2 ^ 64

theorem slide_eq {x : ℕ} (hbase : base < 2 ^ 64) :
    (sub64 x base + vmaBase) % 2 ^ 64 = slide vmaBase base x := by
  unfold sub64 slide
  omega

/-- What the local entries lay over the image. -/
def localPieces (vmaBase base : ℕ) (image : ByteMemory)
    (rs : List Relocation) : List (Piece UInt8) :=
  (rs.filter fun r => IsLocalSlot r).map fun r =>
    slotPiece r.address (slide vmaBase base (image.u64 r.address))

theorem localPieces_cons {r : Relocation} {rs : List Relocation} :
    localPieces vmaBase base image (r :: rs) =
      localPieces vmaBase base image [r] ++
        localPieces vmaBase base image rs := by
  unfold localPieces
  by_cases hslot : IsLocalSlot r <;> simp [hslot]

theorem relocateLocal_eq (hbase : base < 2 ^ 64)
    (h : Intact upload (moduleTables upload symtab dysymtab) image)
    (hi : i < nlocrel upload dysymtab) :
    relocateLocal upload vmaBase base dysymtab image i =
      Piece.layAll image
        (localPieces vmaBase base image [localAt upload dysymtab i]) := by
  simp only [relocateLocal, h.readLocal hi]
  generalize localAt upload dysymtab i = r at *
  by_cases hslot : IsLocalSlot r
  · have hnot : ¬ (r.isExtern = true ∨ r.length ≠ 3) := by
      rintro (htrue | hne)
      · exact Bool.noConfusion (hslot.1.symm.trans htrue)
      · exact hne hslot.2
    rw [if_neg hnot, write_eq_lay, slide_eq hbase]
    simp [localPieces, hslot]
  · have hskip : r.isExtern = true ∨ r.length ≠ 3 := by
      by_contra hnot
      push Not at hnot
      exact hslot ⟨by simpa using hnot.1, hnot.2⟩
    rw [if_pos hskip]
    simp [localPieces, hslot]

/-- A slot that none of the pieces meets is read as before. -/
theorem u64_layAll {ps : List (Piece UInt8)}
    (h : ∀ p ∈ ps, ∀ k, k < 8 → ¬ p.Covers (a + k)) :
    ByteMemory.u64 (Piece.layAll image ps) a = image.u64 a :=
  u64_congr fun k hk => Piece.layAll_of_not_covers fun p hp => h p hp k hk

theorem not_covers_of_apart {b : ℕ} (h : SlotsApart a b) :
    ∀ k, k < 8 → ¬ (slotPiece a v).Covers (b + k) := by
  intro k hk hcovers
  have hcovers : a ≤ b + k ∧ b + k < a + 8 := hcovers
  unfold SlotsApart at h
  omega

/-- Only what local slots hold matters for what is laid over them. -/
theorem localPieces_congr {rs : List Relocation}
    (h : ∀ r ∈ rs, IsLocalSlot r →
      image.u64 r.address = ByteMemory.u64 image' r.address) :
    localPieces vmaBase base image rs = localPieces vmaBase base image' rs := by
  refine List.map_congr_left fun r hr => ?_
  have hr := List.mem_filter.mp hr
  rw [h r hr.1 (by simpa using hr.2)]

theorem relocateLocals_eq (hbase : base < 2 ^ 64)
    (h : Intact upload (moduleTables upload symtab dysymtab) image)
    (his : ∀ i ∈ is, i < nlocrel upload dysymtab)
    (hout : ∀ i ∈ is, IsLocalSlot (localAt upload dysymtab i) →
      OutsideTables (moduleTables upload symtab dysymtab)
        (localAt upload dysymtab i).address)
    (hapart : ((is.map (localAt upload dysymtab)).filter
      fun r => IsLocalSlot r).Pairwise
        fun r r' => SlotsApart r.address r'.address) :
    is.foldl (relocateLocal upload vmaBase base dysymtab) image =
      Piece.layAll image (localPieces vmaBase base image
        (is.map (localAt upload dysymtab))) := by
  induction is generalizing image with
  | nil => rfl
  | cons i is ih =>
      rw [List.foldl_cons, List.map_cons, localPieces_cons, Piece.layAll_append,
        relocateLocal_eq hbase h (his i List.mem_cons_self)]
      have hi := his i List.mem_cons_self
      have his := fun j hj => his j (List.mem_cons_of_mem i hj)
      by_cases hslot : IsLocalSlot (localAt upload dysymtab i)
      · rw [List.map_cons, List.filter_cons_of_pos (by simpa using hslot),
          List.pairwise_cons] at hapart
        have hpiece : localPieces vmaBase base image
            [localAt upload dysymtab i] =
              [slotPiece (localAt upload dysymtab i).address
                (slide vmaBase base
                  (image.u64 (localAt upload dysymtab i).address))] := by
          simp [localPieces, hslot]
        rw [hpiece, Piece.layAll_cons, Piece.layAll_nil]
        generalize slide vmaBase base _ = v
        have hsame : localPieces vmaBase base
            (Piece.lay image (slotPiece (localAt upload dysymtab i).address v))
            (is.map (localAt upload dysymtab)) =
              localPieces vmaBase base image
                (is.map (localAt upload dysymtab)) := by
          refine localPieces_congr fun r hr hr' => u64_congr fun k hk => ?_
          exact Piece.lay_of_not_covers (not_covers_of_apart
            (hapart.1 r (List.mem_filter.mpr ⟨hr, by simpa using hr'⟩)) k hk)
        rw [← hsame]
        exact ih (h.lay_slotPiece (hout i List.mem_cons_self hslot)) his
          (fun j hj => hout j (List.mem_cons_of_mem _ hj)) hapart.2
      · have hpiece : localPieces vmaBase base image
            [localAt upload dysymtab i] = [] := by
          simp [localPieces, hslot]
        rw [List.map_cons, List.filter_cons_of_neg (by simpa using hslot)]
          at hapart
        rw [hpiece, Piece.layAll_nil]
        exact ih h his (fun j hj => hout j (List.mem_cons_of_mem _ hj)) hapart

end Relocate

end PongoOS
