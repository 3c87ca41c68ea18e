import Mathlib.Data.List.Pairwise
import PongoOS.Dtree.Lookup

/-!
# Entries of the memory map

`dt_alloc_memmap` takes a property of a node for a new entry: it gives the
property a name and returns its value.  The property should be one of those that
are reserved for new entries, or one that has the name already.  The callback
looks at four characters of the key, and for the name `RAMDisk` at none.
-/

namespace PongoOS

/-! ## The callback -/

/-- `"RAMDisk"`. -/
def ramDisk : CString := ⟨[82, 65, 77, 68, 105, 115, 107], by decide⟩

/-- `"MemoryMapReserved"`. -/
def memoryMapReserved : CString :=
  ⟨[77, 101, 109, 111, 114, 121, 77, 97, 112, 82, 101, 115, 101, 114, 118, 101,
    100], by decide⟩

/-- `key[0] == 'M' && key[1] == 'e' && key[9] == 'R' && key[10] == 'e'`. -/
def LooksReserved (mem : ByteMemory) (key : ℕ) : Prop :=
  mem key = 77 ∧ mem (key + 1) = 101 ∧ mem (key + 9) = 82 ∧
    mem (key + 10) = 101

instance (mem : ByteMemory) (key : ℕ) : Decidable (LooksReserved mem key) :=
  inferInstanceAs (Decidable (_ ∧ _))

/-- `strcpy`. -/
def ByteMemory.strcpy (mem : ByteMemory) (dst : ℕ) (src : CString) :
    ByteMemory := mem.write dst (src.bytes ++ [0])

/-- `dt_find_memmap_cb`, whose state is the memory and, once it is found, the
value that replaces the name. -/
def dtFindMemmapCb (name : CString) :
    DtCallbacks (ByteMemory × Option ℕ) where
  cbNode := none
  cbProp := some fun _ _ key val _ s =>
    if LooksReserved s.1 key ∨ name = ramDisk then
      pure (1, s.1.strcpy key name, some val)
    else pure (0, s)

/-- `dt_alloc_memmap`, with the memory that it leaves.  `none` is a null
pointer. -/
def dtAllocMemmap (b : Buffer) (fuel node : ℕ) (name : CString) :
    Outcome (Option ℕ × ByteMemory) := do
  let (_, (mem, val), _) ←
    dtParse b (dtFindMemmapCb name) fuel node (-1) (b.mem, none)
  pure (val, mem)

/-! ## What should be taken -/

namespace DtProp

/-- The property is a placeholder. -/
def Reserved (mem : ByteMemory) (p : DtProp) : Prop :=
  mem.Holds p.key memoryMapReserved.bytes

/-- The property has this name. -/
def Carries (mem : ByteMemory) (name : CString) (p : DtProp) : Prop :=
  mem.Holds p.key (name.bytes ++ [0])

/-- The callback takes the property. -/
def Selected (mem : ByteMemory) (name : CString) (p : DtProp) : Prop :=
  LooksReserved mem p.key ∨ name = ramDisk

instance (mem : ByteMemory) (p : DtProp) : Decidable (p.Reserved mem) :=
  inferInstanceAs (Decidable (mem.Holds _ _))

instance (mem : ByteMemory) (name : CString) (p : DtProp) :
    Decidable (p.Carries mem name) :=
  inferInstanceAs (Decidable (mem.Holds _ _))

instance (mem : ByteMemory) (name : CString) (p : DtProp) :
    Decidable (p.Selected mem name) :=
  inferInstanceAs (Decidable (_ ∨ _))

/-- The property has the name now, and nothing but its key has changed. -/
structure Renamed (name : CString) (p : DtProp) (mem mem' : ByteMemory) :
    Prop where
  carries : p.Carries mem' name
  frame : ∀ a, ¬ (p.key ≤ a ∧ a < p.key + dtKeyLen) → mem' a = mem a

end DtProp

/-- A placeholder or a property with the name is renamed and its value is
returned; if the node has neither, nothing happens. -/
def AllocatesMemmap (mem : ByteMemory) (a : DtNode) (name : CString)
    (r : Option ℕ × ByteMemory) : Prop :=
  (∃ p ∈ a.props, (p.Reserved mem ∨ p.Carries mem name) ∧
      r.1 = some p.val ∧ p.Renamed name mem r.2) ∨
    (∀ p ∈ a.props, ¬ (p.Reserved mem ∨ p.Carries mem name)) ∧ r = (none, mem)

/-- The first property that the callback takes is a placeholder or has the name,
and what does not fit into its key is there already.  If it takes none, no
property has the name. -/
def MemmapFits (mem : ByteMemory) (a : DtNode) (name : CString) : Prop :=
  match a.props.find? fun p => p.Selected mem name with
  | some p => (p.Reserved mem ∨ p.Carries mem name) ∧
      mem.Holds (p.key + dtKeyLen) ((name.bytes ++ [0]).drop dtKeyLen)
  | none => ∀ p ∈ a.props, ¬ p.Carries mem name

section Memmap

variable {mem : ByteMemory} {name : CString} {p : DtProp} {a : DtNode}

theorem DtProp.Reserved.looksReserved (h : p.Reserved mem) :
    LooksReserved mem p.key := by
  have hbyte : ∀ i (hi : i < memoryMapReserved.bytes.length),
      mem (p.key + i) = memoryMapReserved.bytes[i] := by
    intro i hi
    have hget := List.getElem_of_eq h (by rwa [ByteMemory.length_bytesAt])
    rwa [ByteMemory.getElem_bytesAt] at hget
  exact ⟨hbyte 0 (by decide), hbyte 1 (by decide), hbyte 9 (by decide),
    hbyte 10 (by decide)⟩

/-- Copying the name changes nothing but the key if the rest is there already. -/
theorem strcpy_frame_iff :
    (∀ x, ¬ (p.key ≤ x ∧ x < p.key + dtKeyLen) →
        mem.strcpy p.key name x = mem x) ↔
      mem.Holds (p.key + dtKeyLen) ((name.bytes ++ [0]).drop dtKeyLen) := by
  unfold ByteMemory.strcpy
  generalize name.bytes ++ [0] = xs
  constructor
  · intro hframe
    refine List.ext_getElem (by simp) fun i hi _ => ?_
    rw [ByteMemory.length_bytesAt, List.length_drop] at hi
    rw [ByteMemory.getElem_bytesAt, List.getElem_drop, Nat.add_assoc,
      ← hframe _ (by omega), ByteMemory.write_apply (by omega)]
  · intro hrest x hx
    by_cases hin : p.key ≤ x ∧ x < p.key + xs.length
    · obtain ⟨i, rfl⟩ := Nat.exists_eq_add_of_le hin.1
      obtain ⟨j, rfl⟩ : ∃ j, i = dtKeyLen + j :=
        Nat.exists_eq_add_of_le (by omega)
      have hget := List.getElem_of_eq hrest (i := j) (by
        rw [ByteMemory.length_bytesAt, List.length_drop]
        omega)
      rw [ByteMemory.getElem_bytesAt, List.getElem_drop, Nat.add_assoc] at hget
      rw [ByteMemory.write_apply (by omega), hget]
    · exact ByteMemory.write_apply_of_not hin

theorem renamed_strcpy_iff : p.Renamed name mem (mem.strcpy p.key name) ↔
    mem.Holds (p.key + dtKeyLen) ((name.bytes ++ [0]).drop dtKeyLen) := by
  rw [← strcpy_frame_iff]
  exact ⟨fun h => h.frame, fun h => ⟨ByteMemory.holds_write, h⟩⟩

/-! ## The call -/

/-- What `dt_find_memmap_cb` stops at. -/
def memmapHit (mem : ByteMemory) (name : CString) : DtEvent → Option DtProp
  | .node _ => none
  | .prop _ _ key _ len =>
      if (⟨key, len⟩ : DtProp).Selected mem name then some ⟨key, len⟩ else none

theorem findSome_memmapHit {depth : ℤ} :
    (a.propEvents depth).findSome? (memmapHit mem name) =
      a.props.find? fun p => p.Selected mem name := by
  rw [DtNode.propEvents]
  induction a.props with
  | nil => rfl
  | cons p ps ih =>
      rw [List.map_cons, List.findSome?_cons, List.find?_cons, ih]
      have hhit : memmapHit mem name (.prop a.addr depth p.key p.val p.len) =
          if p.Selected mem name then some p else none := rfl
      rw [hhit]
      by_cases hselected : p.Selected mem name
      · simp [hselected]
      · simp [hselected]

/-- The state when the callback has taken `p`. -/
def memmapTaken (mem : ByteMemory) (name : CString) (p : DtProp) :
    ByteMemory × Option ℕ := (mem.strcpy p.key name, some p.val)

theorem dtFindMemmapCb_call {depth : ℤ} : ∀ e ∈ a.events depth,
    (dtFindMemmapCb name).call e (mem, none) =
      .ok (stopped 1 (memmapTaken mem name) (mem, none)
        (memmapHit mem name e)) := by
  intro e he
  rcases List.mem_cons.mp he with rfl | he
  · rfl
  · obtain ⟨p, hp, rfl⟩ := List.mem_map.mp he
    have hhit : memmapHit mem name (.prop a.addr depth p.key p.val p.len) =
        if p.Selected mem name then some p else none := rfl
    rw [hhit]
    by_cases hselected : p.Selected mem name
    · rw [if_pos hselected]
      exact if_pos hselected
    · rw [if_neg hselected]
      exact if_neg hselected

/-- The first property that the callback takes is renamed. -/
theorem dtAllocMemmap_node {b : Buffer} {off fuel : ℕ}
    (hnprop : b.load32 a.addr = .ok a.props.length)
    (hprops : PropsAt b a.addr a.props dtNodeSize off) :
    dtAllocMemmap b (fuel + 1) a.addr name =
      .ok ((a.props.find? fun p => p.Selected b.mem name).elim (none, b.mem)
        fun p => (some p.val, b.mem.strcpy p.key name)) := by
  rw [dtAllocMemmap, dtParse_shallow (by decide) rfl hnprop hprops,
    visit_search Int.one_ne_zero _ dtFindMemmapCb_call, DtNode.events,
    List.findSome?_cons]
  rw [memmapHit, findSome_memmapHit]
  cases a.props.find? fun p => p.Selected b.mem name with
  | none => rfl
  | some p => rfl

/-- The call takes what it should exactly in this case. -/
theorem allocatesMemmap_iff : AllocatesMemmap mem a name
    ((a.props.find? fun p => p.Selected mem name).elim (none, mem)
      fun p => (some p.val, mem.strcpy p.key name)) ↔
      MemmapFits mem a name := by
  unfold MemmapFits
  cases hfind : a.props.find? fun p => p.Selected mem name with
  | some p =>
      have hp : p ∈ a.props := List.mem_of_find?_eq_some hfind
      constructor
      · rintro (⟨⟨key, len⟩, -, hq, hval, hrenamed⟩ | ⟨-, hnone⟩)
        · obtain ⟨key', len'⟩ := p
          obtain rfl : key' = key :=
            Nat.add_right_cancel (Option.some.inj hval)
          have hkey : (⟨key', len'⟩ : DtProp).Renamed name mem
              (mem.strcpy key' name) := ⟨hrenamed.carries, hrenamed.frame⟩
          exact ⟨hq, renamed_strcpy_iff.mp hkey⟩
        · cases hnone
      · rintro ⟨hp', hrest⟩
        exact .inl ⟨p, hp, hp', rfl, renamed_strcpy_iff.mpr hrest⟩
  | none =>
      have hnone := List.find?_eq_none.mp hfind
      constructor
      · rintro (⟨q, -, -, hval, -⟩ | ⟨hall, -⟩)
        · cases hval
        · exact fun q hq hcarries => hall q hq (.inr hcarries)
      · intro hcarries
        refine .inr ⟨fun q hq hor => ?_, rfl⟩
        rcases hor with hreserved | hq'
        · have hselected : q.Selected mem name := .inl hreserved.looksReserved
          exact hnone q hq (by simpa using hselected)
        · exact hcarries q hq hq'

/-! ## The other properties -/

/-- One property ends before the other one starts. -/
def DtProp.Apart (p q : DtProp) : Prop :=
  p.val + p.len ≤ q.key ∨ q.val + q.len ≤ p.key

instance : Std.Symm DtProp.Apart := ⟨fun _ _ h => h.symm⟩

/-- Properties whose values are inside a buffer that is not too large lie one
behind the other. -/
theorem PropsAt.pairwise {b : Buffer} {node size off off' : ℕ}
    {ps : List DtProp} (hsize : size < 2 ^ 32 - 2 ^ 24)
    (hvalues : ∀ p ∈ ps, p.val + p.len ≤ node + size)
    (h : PropsAt b node ps off off') :
    (∀ p ∈ ps, node + off ≤ p.key) ∧
      ps.Pairwise fun p q => p.val + p.len ≤ q.key := by
  induction ps generalizing off with
  | nil => exact ⟨nofun, List.Pairwise.nil⟩
  | cons p ps ih =>
      obtain ⟨hkey, hlen, hrest⟩ := h
      obtain ⟨hbehind, hpairwise⟩ :=
        ih (fun q hq => hvalues q (List.mem_cons_of_mem p hq)) hrest
      have hvalue := hvalues p List.mem_cons_self
      have hadvance : p.val + p.len ≤ node + dtAdvance off p.len := by
        have hoff : off + dtPropSize ≤ size := by
          unfold DtProp.val at hvalue
          omega
        have hnext := add_le_dtAdvance (dtPropLen_lt hlen) hoff hsize
        unfold DtProp.val
        omega
      refine ⟨fun q hq => ?_, List.pairwise_cons.mpr ⟨?_, hpairwise⟩⟩
      · rcases List.mem_cons.mp hq with rfl | hq
        · exact hkey.ge
        · have hq := hbehind q hq
          unfold DtProp.val at hadvance
          omega
      · exact fun q hq => hadvance.trans (hbehind q hq)

/-- Renaming one of them leaves the keys and the values of the others alone. -/
theorem DtProp.Renamed.others {mem' : ByteMemory} {ps : List DtProp}
    {q : DtProp} (h : p.Renamed name mem mem')
    (hpairwise : ps.Pairwise fun p q => p.val + p.len ≤ q.key) (hp : p ∈ ps)
    (hq : q ∈ ps) (hne : q ≠ p) :
    q.keyString mem' = q.keyString mem ∧ q.value mem' = q.value mem := by
  have hpairs : ps.Pairwise DtProp.Apart := hpairwise.imp Or.inl
  have hapart := hpairs.forall hp hq (Ne.symm hne)
  have hsame : ∀ x, q.key ≤ x → x < q.val + q.len ∨ x < q.val →
      mem' x = mem x := by
    intro x hlow hhigh
    refine h.frame x fun hin => ?_
    unfold DtProp.Apart DtProp.val dtPropSize at hapart
    unfold DtProp.val dtPropSize at hhigh
    unfold dtKeyLen at hin
    omega
  constructor
  · unfold DtProp.keyString ByteMemory.stringAt
    congr 1
    refine ByteMemory.bytesAt_congr fun i hi => hsame _ (by omega) (.inr ?_)
    unfold DtProp.val dtPropSize
    unfold dtKeyLen at hi
    omega
  · refine ByteMemory.bytesAt_congr fun i hi => hsame _ ?_ (.inl (by omega))
    unfold DtProp.val
    omega

end Memmap

/-- In a tree that `dt_check` accepts the call returns for every node and every
name, and takes what it should exactly where `MemmapFits` says so.  Renaming a
property leaves the other ones alone, unless the buffer is so large that they may
overlap. -/
theorem dtAllocMemmap_iff {mem : ByteMemory} {fuel size off : ℕ}
    (hsize : size < 2 ^ 32)
    (h : dtCheck ⟨mem, size⟩ fuel 0 size = .ok (some off)) :
    ∃ a children, a.addr = 0 ∧ TreeAt ⟨mem, size⟩ a children off ∧
      ∀ c ∈ a :: children.labels, ∀ name, ∃ r,
        (∀ fuel', 0 < fuel' →
          dtAllocMemmap ⟨mem, size⟩ fuel' c.addr name = .ok r) ∧
        (AllocatesMemmap mem c name r ↔ MemmapFits mem c name) ∧
        (size < 2 ^ 32 - 2 ^ 24 → ∀ p ∈ c.props, p.Renamed name mem r.2 →
          ∀ q ∈ c.props, q ≠ p → q.keyString r.2 = q.keyString mem ∧
            q.value r.2 = q.value mem) := by
  obtain ⟨-, a, children, haddr, -, htree, hvalues⟩ := dtCheck_ok hsize h
  refine ⟨a, children, haddr, htree, ?_⟩
  intro c hc name
  obtain ⟨hnprop, off', hprops⟩ := props_of_mem_tree htree c hc
  refine ⟨_, fun fuel' hfuel' => ?_, allocatesMemmap_iff, ?_⟩
  · obtain ⟨fuel', rfl⟩ : ∃ k, fuel' = k + 1 :=
      Nat.exists_eq_add_of_le' hfuel'
    exact dtAllocMemmap_node hnprop hprops
  · intro hsmall p hp hrenamed q hq hne
    have hbelow : ∀ p ∈ c.props, p.val + p.len ≤ c.addr + size := by
      intro p hp
      have hend := hvalues hsmall c hc p hp
      omega
    exact hrenamed.others (hprops.pairwise hsmall hbelow).2 hp hq hne

/-! A node `memory-map` with its name and one placeholder. -/

def dtKey (bs : List UInt8) : List UInt8 :=
  bs ++ List.replicate (dtKeyLen - bs.length) 0

def sampleMemmap : ByteMemory := fun a =>
  ([2, 0, 0, 0, 0, 0, 0, 0] ++ dtKey nameKey.bytes ++
    [11, 0, 0, 0, 109, 101, 109, 111, 114, 121, 45, 109, 97, 112, 0, 0] ++
    dtKey (memoryMapReserved.bytes ++ [45, 48]) ++
    [16, 0, 0, 0] ++ List.replicate 16 0).getD a 0

def memmapNode : DtNode := ⟨0, [⟨8, 11⟩, ⟨56, 16⟩]⟩

theorem dtCheck_sampleMemmap :
    dtCheck ⟨sampleMemmap, 108⟩ 2 0 108 = .ok (some 108) := by
  have hresult : (dtCheck ⟨sampleMemmap, 108⟩ 2 0 108).toOption.map id =
      some (some 108) := by decide +kernel
  obtain ⟨r, hr, rfl⟩ := Outcome.ok_of_map hresult
  exact hr

theorem sampleMemmap_treeAt :
    TreeAt ⟨sampleMemmap, 108⟩ memmapNode .nil 108 := by
  have hload : ∀ a n, a + 4 ≤ 108 →
      littleEndian (sampleMemmap.bytesAt a 4) = n →
      (⟨sampleMemmap, 108⟩ : Buffer).load32 a = .ok n := by
    rintro a n ha rfl
    exact if_pos ha
  have hlen : ∀ off n, 0 + off + 36 ≤ 108 →
      littleEndian (sampleMemmap.bytesAt (0 + off + 32) 4) % 2 ^ 24 = n →
      dtPropLen ⟨sampleMemmap, 108⟩ 0 off = .ok n := by
    rintro off n hoff rfl
    rw [dtPropLen, dtKeyLen, hload _ _ (by omega) rfl, Outcome.ok_bind]
    rfl
  exact ⟨hload _ _ (by decide) (by decide), hload _ _ (by decide) (by decide),
    108, ⟨rfl, hlen _ _ (by decide) (by decide), rfl,
      hlen _ _ (by decide) (by decide), rfl⟩, rfl⟩

/-- A name that is not in the node takes the placeholder. -/
theorem dtAllocMemmap_sampleMemmap : ∃ r,
    dtAllocMemmap ⟨sampleMemmap, 108⟩ 1 0 nameKey = .ok r ∧
      AllocatesMemmap sampleMemmap memmapNode nameKey r := by
  obtain ⟨a, children, haddr, htree, halloc⟩ :=
    dtAllocMemmap_iff (by decide) dtCheck_sampleMemmap
  obtain ⟨rfl, rfl, -⟩ := htree.unique haddr sampleMemmap_treeAt
  obtain ⟨r, hr, hiff, -⟩ := halloc memmapNode List.mem_cons_self nameKey
  refine ⟨r, hr 1 Nat.one_pos, hiff.mpr ?_⟩
  have hfind : memmapNode.props.find?
      (fun p => p.Selected sampleMemmap nameKey) = some ⟨56, 16⟩ := by
    decide +kernel
  rw [MemmapFits, hfind]
  exact ⟨.inl (by decide +kernel), by decide +kernel⟩

/-- The name of the node itself becomes `RAMDisk`. -/
theorem ramDisk_replaces_name : ∃ r,
    TreeAt ⟨sampleMemmap, 108⟩ memmapNode .nil 108 ∧
      dtCheck ⟨sampleMemmap, 108⟩ 2 0 108 = .ok (some 108) ∧
      dtAllocMemmap ⟨sampleMemmap, 108⟩ 1 0 ramDisk = .ok r ∧
      r.1 = some 44 ∧ ¬ AllocatesMemmap sampleMemmap memmapNode ramDisk r := by
  obtain ⟨hnprop, -, off, hprops, -⟩ := sampleMemmap_treeAt
  refine ⟨_, sampleMemmap_treeAt, dtCheck_sampleMemmap,
    dtAllocMemmap_node hnprop hprops, ?_, ?_⟩
  · decide +kernel
  · have hfind : memmapNode.props.find?
        (fun p => p.Selected sampleMemmap ramDisk) = some ⟨8, 11⟩ := by
      decide +kernel
    rw [allocatesMemmap_iff, MemmapFits, hfind]
    rintro ⟨hp, -⟩
    exact absurd hp (by decide +kernel)

end PongoOS
