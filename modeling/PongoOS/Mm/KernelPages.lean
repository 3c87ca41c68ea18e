import PongoOS.Mm.MapRule
import PongoOS.Support.ByteMemory
import PongoOS.Support.Overlay

/-!
# Pages in the kernel's space

`linear_kvm_alloc` hands out addresses, `vatophys` translates the address of
memory, and `vm_space_map_page_physical_prot` maps a page of that memory once
more at an address of the first kind.  An entry without the right to read is
written as an empty one, so that such a page is not mapped at all.

What the translation tables made of an address before is a parameter, and so is
what is mapped besides.
-/

namespace PongoOS

/-! ## `linear_kvm_alloc` -/

def linearKvmBase : ℕ := 0x120000000

def linearKvmEnd : ℕ := 0x180000000

/-- `size` is a `uint32_t`. -/
def linearKvmSize (size : ℕ) : ℕ :=
  (size % 2 ^ 32 + 0x3fff) % 2 ^ 32 / 0x4000 * 0x4000

/-- `linear_kvm_alloc`: the address and where the cursor is left. -/
def linearKvmAlloc (cursor size : ℕ) : Outcome (ℕ × ℕ) :=
  let size := linearKvmSize size
  if linearKvmEnd < cursor + size then
    .error (.panic "linear_kvm_alloc: OOM")
  else pure (cursor, cursor + size)

theorem linearKvmAlloc_eq_ok {cursor n : ℕ} {r : ℕ × ℕ} :
    linearKvmAlloc cursor n = .ok r ↔
      cursor + linearKvmSize n ≤ linearKvmEnd ∧
        (cursor, cursor + linearKvmSize n) = r := by
  simp only [linearKvmAlloc]
  split
  · rename_i hfull
    exact iff_of_false nofun fun h => absurd h.1 (Nat.not_le_of_lt hfull)
  · rename_i hroom
    rw [Outcome.pure_eq_ok]
    exact ⟨fun h => ⟨Nat.le_of_not_lt hroom, h⟩, fun h => h.2⟩

/-! ## `vatophys` -/

def heapBase : ℕ := 0xe00000000

/-- What the translation of an address depends on.  `parEl1` is what `PAR_EL1`
holds after it. -/
structure AddressSpace where
  granule : Granule
  heapEnd : ℕ
  parEl1 : ℕ → ℕ

def vatophysForce (A : AddressSpace) (kvaddr : ℕ) : ℕ :=
  if A.parEl1 kvaddr % 2 = 1 then 2 ^ 64 - 1
  else
    let pgsz := A.granule.pgsz
    kvaddr % pgsz + A.parEl1 kvaddr % 2 ^ 48 / pgsz * pgsz

def vatophys (A : AddressSpace) (kvaddr : ℕ) : Outcome ℕ :=
  if 2 ^ 63 ≤ kvaddr then
    .error (.panic "vatophys: address must be in ttbr0")
  else if heapBase ≤ kvaddr ∧ kvaddr < A.heapEnd then
    .error (.panic "vatophys: called on heap, which is non-contiguous!")
  else if linearKvmBase ≤ kvaddr ∧ kvaddr < linearKvmEnd then
    .error (.panic "vatophys: called on kvm, which is non-contiguous!")
  else .ok (vatophysForce A kvaddr)

/-- The addresses that `vatophys` accepts. -/
structure IsContiguous (A : AddressSpace) (kvaddr : ℕ) : Prop where
  ttbr0 : kvaddr < 2 ^ 63
  not_heap : ¬ (heapBase ≤ kvaddr ∧ kvaddr < A.heapEnd)
  not_kvm : ¬ (linearKvmBase ≤ kvaddr ∧ kvaddr < linearKvmEnd)

theorem vatophys_eq_ok {A : AddressSpace} {kvaddr pa : ℕ} :
    vatophys A kvaddr = .ok pa ↔
      IsContiguous A kvaddr ∧ vatophysForce A kvaddr = pa := by
  unfold vatophys
  split
  · rename_i htop
    exact iff_of_false nofun fun h => absurd h.1.ttbr0 (Nat.not_lt.mpr htop)
  split
  · rename_i hheap
    exact iff_of_false nofun fun h => h.1.not_heap hheap
  split
  · rename_i hkvm
    exact iff_of_false nofun fun h => h.1.not_kvm hkvm
  · rename_i htop hheap hkvm
    rw [Except.ok.injEq]
    exact ⟨fun h => ⟨⟨Nat.not_le.mp htop, hheap, hkvm⟩, h⟩, fun h => h.2⟩

/-- A page of memory that can be mapped at another address as well. -/
structure IsRamPage (A : AddressSpace) (kvaddr : ℕ) : Prop where
  contiguous : IsContiguous A kvaddr
  aligned : vatophysForce A kvaddr % pageSize = 0
  pos : 0 < vatophysForce A kvaddr
  lt : vatophysForce A kvaddr < 2 ^ 48

/-! ## Mapping a page -/

/-- A page at the physical address `pa` that is to be found at `va`.  What it
holds is in the memory that is mapped, at `off`. -/
structure MappedPage where
  va : ℕ
  off : ℕ
  pa : ℕ
  prot : ℕ
deriving DecidableEq, Repr

namespace MappedPage

variable (g : Granule) (p : MappedPage)

/-- `vaddr & 0x7000000000000000`. -/
def isTt1 : Bool := p.va / 2 ^ 60 % 8 != 0

/-- How far an address is behind the start of the page, in the space that TTBR0
translates. -/
def offset (va : ℕ) : ℕ :=
  (va + g.space - Mm.spaceOffset g false p.va) % g.space

def Covers (va : ℕ) : Prop :=
  p.isTt1 = false ∧ va < g.space ∧ p.offset g va < pageSize

/-- The entry is not empty: `pa && (prot & PROT_READ)`, for every block. -/
def IsReadable (va : ℕ) : Prop :=
  p.pa + p.offset g va / g.pgsz * g.pgsz ≠ 0 ∧ p.prot % 2 = 1

instance (va : ℕ) : Decidable (p.Covers g va) :=
  inferInstanceAs (Decidable (_ ∧ _))

instance (va : ℕ) : Decidable (p.IsReadable g va) :=
  inferInstanceAs (Decidable (_ ∧ _))

end MappedPage

/-- `vm_space_map_page_physical_prot` in the kernel's space, where a page is
never one with paging information. -/
def mapPagePhysicalProt (g : Granule) (p : MappedPage) :
    Outcome MappedPage := do
  panicIf (p.isTt1 = true ∧ p.pa % 0x4000 ≠ 0)
    "passed unaligned PA %llx to vm_space_map_page_physical_prot"
  panicIf (Mm.BadArguments g (Mm.spaceOffset g p.isTt1 p.va) p.pa 0x4000)
    "map_range: called with bad arguments (0x%llx, 0x%llx, 0x%llx, ...)"
  pure p

/-- The pages that can be mapped. -/
structure MappedPage.IsAligned (g : Granule) (p : MappedPage) : Prop where
  tt1 : p.isTt1 = true → p.pa % 0x4000 = 0
  arguments : ¬ Mm.BadArguments g (Mm.spaceOffset g p.isTt1 p.va) p.pa 0x4000

theorem mapPagePhysicalProt_eq_ok {g : Granule} {p q : MappedPage} :
    mapPagePhysicalProt g p = .ok q ↔ p.IsAligned g ∧ p = q := by
  simp only [mapPagePhysicalProt, Outcome.bind_eq_ok, panicIf_eq_ok,
    Outcome.pure_eq_ok, exists_and_left, exists_const]
  constructor
  · rintro ⟨htt1, hargs, rfl⟩
    exact ⟨⟨fun h => not_not.mp fun hpa => htt1 ⟨h, hpa⟩, hargs⟩, rfl⟩
  · rintro ⟨h, rfl⟩
    exact ⟨fun hpa => hpa.2 (h.tt1 hpa.1), h.arguments, rfl⟩

/-! ## Memory that is read through pages -/

/-- The byte at an address: the last page there decides, and `none` is an abort.
`memory` is what pages hold and `rest` what is mapped besides. -/
def throughPages (g : Granule) (pages : List MappedPage) (memory : ByteMemory)
    (rest : ℕ → Option UInt8) : ℕ → Option UInt8 := fun va =>
  match lastWhere (fun p => p.Covers g va) pages with
  | some p =>
      if p.IsReadable g va then some (memory (p.off + p.offset g va)) else none
  | none => rest va

section Pages

variable {g : Granule} {p : MappedPage} {pages : List MappedPage} {va : ℕ}
  {memory : ByteMemory} {rest : ℕ → Option UInt8} {b : UInt8}

theorem granule_space (g : Granule) :
    2 ^ 36 ≤ g.space ∧ g.space ≤ 2 ^ 39 := by
  cases g <;> decide

/-- Pages that end in the space of TTBR0 are not translated modulo its size. -/
theorem MappedPage.offset_eq (hp : p.va < g.space) (hle : p.va ≤ va)
    (hva : va < g.space) : p.offset g va = va - p.va := by
  unfold offset
  rw [Mm.spaceOffset_of_lt false hp,
    show va + g.space - p.va = va - p.va + g.space by omega, Nat.add_mod_right]
  exact Nat.mod_eq_of_lt (by omega)

theorem MappedPage.covers_iff (hp : p.va + pageSize ≤ g.space)
    (hva : va < g.space) :
    p.Covers g va ↔ p.va ≤ va ∧ va < p.va + pageSize := by
  have hspace := (granule_space g).2
  have hlt : p.va < g.space := by
    unfold pageSize at hp
    omega
  have htt1 : p.isTt1 = false := by
    unfold isTt1
    rw [Nat.div_eq_of_lt (by omega)]
    rfl
  constructor
  · rintro ⟨-, -, hoffset⟩
    rcases Nat.lt_or_ge va p.va with hbelow | hle
    · unfold offset at hoffset
      rw [Mm.spaceOffset_of_lt false hlt, Nat.mod_eq_of_lt (by omega)] at hoffset
      omega
    · rw [offset_eq hlt hle hva] at hoffset
      omega
  · rintro ⟨hle, hend⟩
    refine ⟨htt1, hva, ?_⟩
    rw [offset_eq hlt hle hva]
    omega

theorem MappedPage.isAligned (hva : p.va + pageSize ≤ g.space)
    (haligned : p.va % pageSize = 0) (hpa : p.pa % pageSize = 0)
    (hlt : p.pa < 2 ^ 48) : p.IsAligned g := by
  have hspace := (granule_space g).2
  unfold pageSize at hva haligned hpa
  have htt1 : p.isTt1 = false := by
    unfold isTt1
    rw [Nat.div_eq_of_lt (by omega)]
    rfl
  refine ⟨fun h => Bool.noConfusion (htt1.symm.trans h), ?_⟩
  rw [Mm.spaceOffset_of_lt _ (by omega)]
  unfold Mm.BadArguments
  cases g with
  | kb4 =>
      have hpgsz : Granule.kb4.pgsz = 0x1000 := rfl
      rw [hpgsz]
      omega
  | kb16 =>
      have hpgsz : Granule.kb16.pgsz = 0x4000 := rfl
      rw [hpgsz]
      omega

/-- What is read where every page that covers the address can be read and holds
the same byte. -/
theorem throughPages_apply (hp : p ∈ pages) (hcovers : p.Covers g va)
    (hall : ∀ q ∈ pages, q.Covers g va →
      q.IsReadable g va ∧ memory (q.off + q.offset g va) = b) :
    throughPages g pages memory rest va = some b := by
  obtain ⟨q, hlast, hq, hq'⟩ :=
    lastWhere_of_mem (P := fun p : MappedPage => p.Covers g va) hp hcovers
  obtain ⟨hreadable, hbyte⟩ := hall q hq hq'
  rw [throughPages, hlast]
  simp only [if_pos hreadable, hbyte]

end Pages

/-! ## Strings -/

/-- Whether `strcmp` of the string at `a` and `xs` is 0, where bytes that cannot
be read are `none`. -/
def strEqThrough (virtual : ℕ → Option UInt8) :
    List UInt8 → ℕ → Option Bool
  | [], a => do pure ((← virtual a) == 0)
  | x :: xs, a => do
      if (← virtual a) = x then strEqThrough virtual xs (a + 1)
      else pure false

/-- Comparing with a string that can be read up to its end. -/
theorem strEqThrough_eq {virtual : ℕ → Option UInt8} {memory : ByteMemory}
    {xs : List UInt8} {a b n : ℕ}
    (hread : ∀ i ≤ n, virtual (a + i) = some (memory (b + i)))
    (hend : memory (b + n) = 0) (hxs : 0 ∉ xs) :
    strEqThrough virtual xs a = some (memory.strEq xs b) := by
  have hfirst := hread 0 (Nat.zero_le n)
  rw [Nat.add_zero, Nat.add_zero] at hfirst
  induction xs generalizing a b n with
  | nil => simp [strEqThrough, ByteMemory.strEq, hfirst]
  | cons x xs ih =>
      by_cases hx : memory b = x
      · obtain ⟨n, rfl⟩ : ∃ k, n = k + 1 := by
          refine Nat.exists_eq_succ_of_ne_zero ?_
          rintro rfl
          exact hxs (List.mem_cons.mpr (.inl (hend.symm.trans hx)))
        have hshift : ∀ i ≤ n, virtual (a + 1 + i) = some (memory (b + 1 + i)) := by
          intro i hi
          have hnext := hread (i + 1) (by omega)
          rwa [show a + (i + 1) = a + 1 + i by omega,
            show b + (i + 1) = b + 1 + i by omega] at hnext
        have hrest := ih hshift
          (by rwa [show b + 1 + n = b + (n + 1) by omega])
          (fun hmem => hxs (List.mem_cons_of_mem _ hmem))
          (hshift 0 (Nat.zero_le n))
        simp [strEqThrough, ByteMemory.strEq, hfirst, hx, hrest]
      · simp [strEqThrough, ByteMemory.strEq, hfirst, hx]

/-- The string `s` and its end can be read at `a`. -/
def ReadsString (virtual : ℕ → Option UInt8) (a : ℕ) (s : CString) : Prop :=
  ∀ i ≤ s.bytes.length, virtual (a + i) = some (s.bytes.getD i 0)

theorem ReadsString.strEqThrough {virtual : ℕ → Option UInt8} {a : ℕ}
    {s : CString} (h : ReadsString virtual a s) (t : CString) :
    strEqThrough virtual t.bytes a = some (decide (s = t)) := by
  let memory : ByteMemory := fun i => s.bytes.getD i 0
  have hread : ∀ i ≤ s.bytes.length, virtual (a + i) = some (memory (0 + i)) := by
    intro i hi
    rw [Nat.zero_add]
    exact h i hi
  have hend : memory (0 + s.bytes.length) = 0 := by
    simp [memory]
  have hholds : memory.Holds 0 (s.bytes ++ [0]) := by
    refine ByteMemory.holds_append.mpr ⟨?_, ?_⟩
    · refine List.ext_getElem (by simp) fun i hi hi' => ?_
      rw [ByteMemory.getElem_bytesAt, Nat.zero_add]
      simp [memory, hi']
    · rw [ByteMemory.holds_cons]
      exact ⟨hend, ByteMemory.holds_nil⟩
  rw [strEqThrough_eq hread hend t.nonzero, Option.some.injEq,
    Bool.eq_iff_iff, hholds.strEq_iff, decide_eq_true_iff]

end PongoOS
