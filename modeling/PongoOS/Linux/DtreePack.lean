import PongoOS.Support.ByteMemory

/-!
# Packs of device trees

A pack holds several device trees with their names.  `fdt_select_dtree` looks for
the one of this device and moves it to the front of the pack.
-/

namespace PongoOS

/-! ## The scan -/

/-- The loop of `fdt_select_dtree`, which stands at the name at `buf`. -/
def fdtSelectEntry (key : CString) (fdt : ℕ) (m : ByteMemory) :
    ℕ → ℕ → Outcome ByteMemory
  | 0, _ => .error .outOfFuel
  | fuel + 1, buf =>
      if m buf = 0 then pure m
      else do
        let ebuf := buf + (← strlen m fuel buf) + 1
        let len := (shiftIn (m.bytesAt ebuf 4)).toNat
        let ebuf := ebuf + 4
        if m.strEq key.bytes buf then pure (m.write fdt (m.bytesAt ebuf len))
        else fdtSelectEntry key fdt m fuel (ebuf + len)

/-- `"Cows"`. -/
def packSignature : List UInt8 := [67, 111, 119, 115]

/-- `fdt_select_dtree`; `targetType` is what `dt_get_prop` gives. -/
def fdtSelectDtree (fuel : ℕ) (targetType : Outcome (Option CString)) (fdt : ℕ)
    (m : ByteMemory) : Outcome ByteMemory :=
  if m.startsWith packSignature fdt then do
    match ← targetType with
    | none => pure m
    | some key => fdtSelectEntry key fdt m fuel (fdt + 4)
  else pure m

/-! ## Packs -/

/-- A device tree with its name. -/
structure PackEntry where
  name : CString
  blob : List UInt8
  name_ne : name.bytes ≠ []
  blob_lt : blob.length < 2 ^ 32

namespace PackEntry

def bytes (e : PackEntry) : List UInt8 :=
  e.name.bytes ++ [0] ++ toBigEndian 4 e.blob.length ++ e.blob

end PackEntry

/-- The entries behind the signature, and the empty name. -/
def packBytes (entries : List PackEntry) : List UInt8 :=
  packSignature ++ (entries.flatMap PackEntry.bytes ++ [0])

/-- The device tree that is looked for. -/
def packSelect (key : CString) (entries : List PackEntry) : Option PackEntry :=
  entries.find? fun e => e.name = key

theorem shiftIn_toBigEndian {n : ℕ} (hn : n < 2 ^ 32) :
    (shiftIn (toBigEndian 4 n)).toNat = n := by
  rw [shiftIn_toNat, bigEndian_toBigEndian]
  omega

/-! ## Selection -/

section Selection

variable {m : ByteMemory} {key : CString} {entries : List PackEntry} {e : PackEntry}
  {fdt buf fuel : ℕ}

/-- The parts of an entry in memory. -/
theorem PackEntry.holds_bytes (h : m.Holds buf e.bytes) :
    m.Holds buf (e.name.bytes ++ [0]) ∧
      (shiftIn (m.bytesAt (buf + e.name.bytes.length + 1) 4)).toNat =
        e.blob.length ∧
      m.Holds (buf + e.name.bytes.length + 1 + 4) e.blob := by
  rw [PackEntry.bytes, ByteMemory.holds_append, ByteMemory.holds_append] at h
  obtain ⟨⟨hname, hlength⟩, hblob⟩ := h
  rw [List.length_append, List.length_singleton, ← Nat.add_assoc] at hlength
  rw [List.length_append, List.length_append, List.length_singleton,
    length_toBigEndian, ← Nat.add_assoc, ← Nat.add_assoc] at hblob
  rw [ByteMemory.Holds, length_toBigEndian] at hlength
  exact ⟨hname, hlength ▸ shiftIn_toBigEndian e.blob_lt, hblob⟩

theorem PackEntry.first_ne_zero (h : m.Holds buf (e.name.bytes ++ [0])) :
    m buf ≠ 0 := by
  cases hbytes : e.name.bytes with
  | nil => exact absurd hbytes e.name_ne
  | cons x xs =>
      rw [hbytes, List.cons_append, ByteMemory.holds_cons] at h
      have hnonzero := e.name.nonzero
      rw [hbytes] at hnonzero
      rw [h.1]
      exact fun hzero => hnonzero (hzero ▸ List.mem_cons_self)

/-- The device tree that was found is written to the front; else nothing is. -/
def packMoved (fdt : ℕ) (m : ByteMemory) : Option PackEntry → ByteMemory
  | none => m
  | some e => m.write fdt e.blob

/-- The induction is on the entries that are left. -/
theorem fdtSelectEntry_selects (h : m.Holds buf (entries.flatMap PackEntry.bytes ++ [0]))
    (hfuel : (entries.flatMap PackEntry.bytes).length < fuel) :
    fdtSelectEntry key fdt m fuel buf =
      .ok (packMoved fdt m (packSelect key entries)) := by
  induction entries generalizing buf fuel with
  | nil =>
      obtain ⟨fuel, rfl⟩ := Nat.exists_eq_add_of_lt hfuel
      rw [fdtSelectEntry, if_pos (ByteMemory.holds_cons.mp h).1]
      rfl
  | cons e entries ih =>
      rw [List.flatMap_cons, List.append_assoc, ByteMemory.holds_append] at h
      rw [List.flatMap_cons, List.length_append] at hfuel
      obtain ⟨fuel, rfl⟩ : ∃ j, fuel = j + 1 := Nat.exists_eq_add_of_le' (by omega)
      obtain ⟨hname, hlength, hblob⟩ := PackEntry.holds_bytes h.1
      have hbytes : e.bytes.length = e.name.bytes.length + 1 + 4 + e.blob.length := by
        simp [PackEntry.bytes]
        omega
      have hnext : m.Holds (buf + e.name.bytes.length + 1 + 4 + e.blob.length)
          (entries.flatMap PackEntry.bytes ++ [0]) := by
        have haddr : buf + e.name.bytes.length + 1 + 4 + e.blob.length =
            buf + e.bytes.length := by omega
        rw [haddr]
        exact h.2
      rw [fdtSelectEntry, if_neg (PackEntry.first_ne_zero hname),
        strlen_of_holds e.name hname (by omega), Outcome.ok_bind]
      simp only [hlength]
      by_cases hkey : e.name = key
      · rw [if_pos (hname.strEq_iff.mpr hkey), packSelect,
          List.find?_cons_of_pos (by simpa using hkey)]
        rw [ByteMemory.Holds] at hblob
        rw [hblob]
        rfl
      · rw [if_neg (fun hstr => hkey (hname.strEq_iff.mp hstr)), packSelect,
          List.find?_cons_of_neg (by simpa using hkey)]
        exact ih hnext (by omega)

/-- The device tree of the target is moved to the front of the pack, wherever it
was; without one the pack stays as it was. -/
theorem fdtSelectDtree_selects (key : CString) (entries : List PackEntry)
    (h : m.Holds fdt (packBytes entries)) (hfuel : (packBytes entries).length ≤ fuel) :
    ∃ m', fdtSelectDtree fuel (.ok (some key)) fdt m = .ok m' ∧
      (∀ e, packSelect key entries = some e → m'.Holds fdt e.blob ∧
        ∀ a, ¬ (fdt ≤ a ∧ a < fdt + e.blob.length) → m' a = m a) ∧
      (packSelect key entries = none → m' = m) := by
  rw [packBytes, List.length_append, List.length_append] at hfuel
  rw [packBytes, ByteMemory.holds_append] at h
  have hscan : fdtSelectEntry key fdt m fuel (fdt + 4) = _ :=
    fdtSelectEntry_selects h.2 (by simp at hfuel ⊢; omega)
  refine ⟨packMoved fdt m (packSelect key entries), ?_, ?_, ?_⟩
  · rw [fdtSelectDtree, if_pos (ByteMemory.startsWith_iff.mpr h.1), Outcome.ok_bind]
    exact hscan
  · intro e he
    rw [he]
    exact ⟨ByteMemory.holds_write, fun a ha => ByteMemory.write_apply_of_not ha⟩
  · intro hnone
    rw [hnone]
    rfl

/-- The names `j71` and `j72`, and device trees of two and nine bytes. -/
def packExample : List PackEntry :=
  [⟨⟨[106, 55, 49], by decide⟩, [0xd0, 0x0d], by decide, by decide⟩,
    ⟨⟨[106, 55, 50], by decide⟩, [0xd0, 0x0d, 0xfe, 0xed, 1, 2, 3, 4, 5], by decide,
      by decide⟩]

theorem fdtSelectDtree_selects_second : ∃ m', fdtSelectDtree 64
      (.ok (some ⟨[106, 55, 50], by decide⟩)) 0x1000
      (ByteMemory.write (fun _ => 0) 0x1000 (packBytes packExample)) = .ok m' ∧
    m'.Holds 0x1000 [0xd0, 0x0d, 0xfe, 0xed, 1, 2, 3, 4, 5] := by
  have hfuel : (packBytes packExample).length ≤ 64 := by decide
  obtain ⟨m', hrun, hmoved, -⟩ := fdtSelectDtree_selects ⟨[106, 55, 50], by decide⟩
    packExample (ByteMemory.holds_write (m := fun _ => 0) (a := 0x1000)) hfuel
  exact ⟨m', hrun, (hmoved _ rfl).1⟩

end Selection

end PongoOS
