import PongoOS.Mm.PageAllocator
import PongoOS.Mm.TranslationTable

/-!
# `map_range_map`

The function descends from the root to the lowest table that covers the whole
range, creating tables on the way, and then walks over the entries of that
table.  A piece that does not fill its block, and a block whose physical
address is not aligned to it, is mapped by calling the function again from the
root.

`ttb_alloc` is a function pointer in the source and a parameter here.  Tables
are read and written at their physical addresses.
-/

namespace PongoOS

/-- The arguments that every recursive call passes on unchanged. -/
structure MapArgs where
  tt0 : ℕ
  sh : ℕ
  attridx : ℕ
  overwrite : Bool
  pagingInfo : ℕ
  prot : Prot
  isTt1 : Bool

namespace Mm

/-- `ttb_alloc_early`: tables are taken downwards from `ttb_alloc_base`. -/
def ttbAllocEarly (g : Granule) (s : Mm) : Outcome (ℕ × Mm) :=
  let rv := sub64 s.ttbAllocBase g.pgsz
  .ok (rv, (s.setTtbAllocBase rv).bzero rv g.pgsz)

/-- `PROT_PAGING_INFO` entries: `valid` is cleared and `table` is set. -/
def pagingInfoWord (pagingInfo : ℕ) : ℕ := pagingInfo % 2 ^ 64 / 4 * 4 + 2

/-- The permission bits `ap` of a new leaf. -/
def leafAp (c : MapArgs) : ℕ :=
  (if c.prot.write then 0 else 2) +
    (if c.isTt1 ∧ ¬ c.prot.kernOnly then 1 else 0)

def leafPxn (c : MapArgs) : ℕ :=
  if ¬ c.prot.exec ∨ (c.isTt1 ∧ ¬ c.prot.kernOnly) then 1 else 0

def leafUxn (c : MapArgs) : ℕ := if c.isTt1 ∧ c.prot.exec then 0 else 1

/-- The leaf that maps one block at `pa`. -/
def leafWord (c : MapArgs) (last : Bool) (pa : ℕ) : ℕ :=
  1 + (if last then 2 else 0) + c.attridx % 2 ^ 3 * 2 ^ 2 + leafAp c * 2 ^ 6 +
    c.sh % 2 ^ 2 * 2 ^ 8 + 2 ^ 10 + (if c.isTt1 then 2 ^ 11 else 0) +
    pa / 2 ^ 12 % 2 ^ 36 * 2 ^ 12 + leafPxn c * 2 ^ 53 + leafUxn c * 2 ^ 54

/-- The page that holds `addr`, of the 16 KiB pages that are counted. -/
def pageFloor (addr : ℕ) : ℕ := addr / pageSize * pageSize

/-- The length, in whole pages, from `pageFloor addr` to `addr + blksz`. -/
def pageSpan (addr blksz : ℕ) : ℕ :=
  (addr - pageFloor addr + blksz + 0x3fff) / pageSize * pageSize

/-- The last branch of the block loop: write one entry of `tt`, counting a
reference to the new block and dropping the one to the old block. -/
def mapBlock (g : Granule) (c : MapArgs) (blksz tt va pa : ℕ) (s : Mm) :
    Outcome Mm := do
  let slot := tt + 8 * (va / blksz % 2 ^ g.ttBits)
  let otte := s.mem slot
  panicIf (Tte.valid otte ∧ ¬ c.overwrite)
    "map_range: trying to map block over existing entry"
  let s₁ ←
    (if c.prot.pagingInfo then pure (s.store slot (pagingInfoWord c.pagingInfo))
    else do
      let tte := leafWord c (blksz = g.pgsz) pa
      if pa ≠ 0 ∧ c.prot.read then do
        let s₁ ←
          (if c.isTt1 then
            physReference (pageFloor (Tte.oaAddr tte))
              (pageSpan (Tte.oaAddr tte) blksz) s
          else pure s : Outcome Mm)
        pure (s₁.store slot tte)
      else pure (s.store slot 0) : Outcome Mm)
  if Tte.valid otte ∧ (Tte.table otte ↔ blksz = g.pgsz) ∧ c.isTt1 then
    physDereference (pageFloor (Tte.oaAddr otte))
      (pageSpan (Tte.oaAddr otte) blksz) s₁
  else pure s₁

/-- One piece of the range, no larger than a block.  `again` is the recursive
call. -/
def mapPiece (again : ℕ → ℕ → ℕ → Mm → Outcome Mm) (g : Granule)
    (c : MapArgs) (blksz tt va pa sz : ℕ) (s : Mm) : Outcome Mm :=
  if sz < blksz then again va pa sz s
  else if pa % blksz ≠ 0 then do
    let frag := pa % blksz
    let s₁ ← again va pa (sz - frag) s
    again (va + sz - frag) (pa + sz - frag) frag s₁
  else mapBlock g c blksz tt va pa s

/-- The block loop, `n` blocks from `lo` on. -/
def mapBlocks (again : ℕ → ℕ → ℕ → Mm → Outcome Mm) (g : Granule)
    (c : MapArgs) (blksz tt : ℕ) :
    ℕ → ℕ → ℕ → ℕ → ℕ → Mm → Outcome Mm
  | 0, _, _, _, _, s => .ok s
  | n + 1, lo, va, pa, size, s => do
      let sz := min (blksz - (va - lo)) size
      let s₁ ← mapPiece again g c blksz tt va pa sz s
      mapBlocks again g c blksz tt n (lo + blksz) (va + sz) (pa + sz)
        (size - sz) s₁

/-- The descent.  The result is the table in which the block loop runs and the
number of address bits it covers. -/
def descend (ttbAlloc : Mm → Outcome (ℕ × Mm)) (g : Granule) (c : MapArgs)
    (va size : ℕ) : ℕ → ℕ → ℕ → Mm → Outcome ((ℕ × ℕ) × Mm)
  | 0, _, _, _ => .error .outOfFuel
  | fuel + 1, bits, tt, s =>
      let blksz := 2 ^ (bits - g.ttBits)
      let lo := va / blksz * blksz
      let hi := (va + size + (blksz - 1)) / blksz * blksz
      if size < blksz ∧ hi - lo = blksz then do
        let slot := tt + 8 * (va / blksz % 2 ^ g.ttBits)
        let tte := s.mem slot
        if Tte.valid tte ∧ Tte.table tte then
          descend ttbAlloc g c va size fuel (bits - g.ttBits)
            (Tte.oaAddr tte) s
        else if ¬ Tte.valid tte ∨ c.overwrite then do
          let (newtt, s₁) ← ttbAlloc s
          descend ttbAlloc g c va size fuel (bits - g.ttBits) newtt
            (s₁.store slot (Tte.link newtt))
        else
          .error (.panic
            "map_range: trying to map table over existing entry")
      else .ok ((bits, tt), s)

/-- The offset of `va` into the translated space. -/
def spaceOffset (g : Granule) (isTt1 : Bool) (va : ℕ) : ℕ :=
  if isTt1 then
    sub64 va (2 ^ 64 - 1 - (2 ^ (65 - g.tsz) - 1)) % 2 ^ (64 - g.tsz)
  else va % 2 ^ (64 - g.tsz)

/-- The number of address bits of the root table, rounded up to whole
levels. -/
def rootBits (g : Granule) : ℕ :=
  let bits := 64 - g.tsz
  if (bits - 3) % g.ttBits ≠ 0 then
    bits + (g.ttBits - (bits - 3) % g.ttBits)
  else bits

def BadArguments (g : Granule) (va pa size : ℕ) : Prop :=
  va % g.pgsz ≠ 0 ∨ pa % g.pgsz ≠ 0 ∨ size % g.pgsz ≠ 0 ∨ size < g.pgsz ∨
    2 ^ 64 ≤ va + size ∨ 2 ^ 64 ≤ pa + size

instance (g : Granule) (va pa size : ℕ) : Decidable (BadArguments g va pa size) :=
  inferInstanceAs (Decidable (_ ∨ _))

/-- `map_range_map` with a bound on the depth of its recursion. -/
def mapRangeMapFuel (ttbAlloc : Mm → Outcome (ℕ × Mm)) (g : Granule)
    (c : MapArgs) : ℕ → ℕ → ℕ → ℕ → Mm → Outcome Mm
  | 0, _, _, _, _ => .error .outOfFuel
  | fuel + 1, va, pa, size, s => do
      let va := spaceOffset g c.isTt1 va
      panicIf (BadArguments g va pa size)
        "map_range: called with bad arguments (0x%llx, 0x%llx, 0x%llx, ...)"
      let ((bits, tt), s₁) ←
        descend ttbAlloc g c va size (g.topLevel + 1) (rootBits g) c.tt0 s
      let blksz := 2 ^ (bits - g.ttBits)
      let lo := va / blksz * blksz
      let hi := (va + size + (blksz - 1)) / blksz * blksz
      mapBlocks (mapRangeMapFuel ttbAlloc g c fuel) g c blksz tt
        ((hi - lo) / blksz) lo va pa size s₁

/-- `map_range_map`.  A recursive call works at least one level further down,
so the depth never exceeds the number of levels. -/
def mapRangeMap (ttbAlloc : Mm → Outcome (ℕ × Mm)) (g : Granule) (c : MapArgs)
    (va pa size : ℕ) (s : Mm) : Outcome Mm :=
  mapRangeMapFuel ttbAlloc g c (g.topLevel + 1) va pa size s

end Mm

end PongoOS
