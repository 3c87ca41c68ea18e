import Mathlib.Data.Nat.Bits
import PongoOS.Support.RadixTable
import PongoOS.Mm.State

/-!
# Translation tables

`union tte`, the geometry of the two translation granules, and the
architectural table walk.  A table is a radix table of 64-bit descriptors; the
last level holds pages and the levels above it hold blocks or links.
-/

namespace PongoOS

open RadixTable

/-! ## Granules -/

/-- The configuration chosen by `lowlevel_setup`. -/
inductive Granule where
  | kb4
  | kb16
deriving DecidableEq, Repr

namespace Granule

/-- `tt_bits`. -/
def ttBits : Granule → ℕ
  | kb4 => 9
  | kb16 => 11

/-- `t0sz` and `t1sz`, which are equal. -/
def tsz : Granule → ℕ
  | kb4 => 25
  | kb16 => 28

/-- `1ULL << (tt_bits + 3)`. -/
def pgsz (g : Granule) : ℕ := 2 ^ (g.ttBits + 3)

/-- The level of the root table, counted from the last level. -/
def topLevel : Granule → ℕ
  | kb4 => 2
  | kb16 => 1

end Granule

/-! ## `union tte` -/

/-- The `n` bits of `w` from bit `lo` on. -/
def field (w lo n : ℕ) : ℕ := w / 2 ^ lo % 2 ^ n

namespace Tte

def valid (w : ℕ) : Prop := field w 0 1 = 1
def table (w : ℕ) : Prop := field w 1 1 = 1
def attr (w : ℕ) : ℕ := field w 2 3
def ns (w : ℕ) : ℕ := field w 5 1
def ap (w : ℕ) : ℕ := field w 6 2
def sh (w : ℕ) : ℕ := field w 8 2
def af (w : ℕ) : ℕ := field w 10 1
def nG (w : ℕ) : ℕ := field w 11 1
def oa (w : ℕ) : ℕ := field w 12 36
def pxn (w : ℕ) : ℕ := field w 53 1
def uxn (w : ℕ) : ℕ := field w 54 1
def pxntab (w : ℕ) : ℕ := field w 59 1
def uxntab (w : ℕ) : ℕ := field w 60 1
def aptab (w : ℕ) : ℕ := field w 61 2
def nstab (w : ℕ) : ℕ := field w 63 1

instance (w : ℕ) : Decidable (valid w) := inferInstanceAs (Decidable (_ = _))
instance (w : ℕ) : Decidable (table w) := inferInstanceAs (Decidable (_ = _))

/-- `tte.oa << 12`. -/
def oaAddr (w : ℕ) : ℕ := oa w * 0x1000

/-- A descriptor with `valid`, `table` and `oa` set and nothing else. -/
def link (t : ℕ) : ℕ := 3 + t / 0x1000 % 2 ^ 36 * 0x1000

/-- A link that imposes no hierarchical restriction. -/
def Plain (w : ℕ) : Prop := w / 2 ^ 59 = 0

end Tte

/-- The radix table of a granule. -/
def Granule.layout (g : Granule) : Layout where
  page := g.pgsz
  fan := 2 ^ g.ttBits
  top := g.topLevel
  child := fun w =>
    if Tte.valid w ∧ Tte.table w then some (Tte.oaAddr w) else none
  page_pos := Nat.two_pow_pos _
  fan_pos := Nat.two_pow_pos _

/-- The size of the translated space, `1ULL << bits`. -/
def Granule.space (g : Granule) : ℕ := 2 ^ (64 - g.tsz)

/-! ## The table walk -/

/-- What the walk reports for one address. -/
structure Translation where
  pa : ℕ
  attr : ℕ
  ns : Bool
  ap1 : Bool
  ap2 : Bool
  sh : ℕ
  af : Bool
  nG : Bool
  pxn : Bool
  uxn : Bool
deriving DecidableEq, Repr

/-- The entry `e` of level `k` maps memory: a block above the last level, a
page on it. -/
def IsLeaf (k e : ℕ) : Prop := Tte.valid e ∧ (Tte.table e ↔ k = 0)

instance (k e : ℕ) : Decidable (IsLeaf k e) :=
  inferInstanceAs (Decidable (_ ∧ _))

/-- The leaf `e` of level `k` at address `x`, reached through `path`.  Each link
may forbid access, writing or execution below it. -/
def leafTranslation (g : Granule) (path : List ℕ) (k e x : ℕ) :
    Translation where
  pa := Tte.oaAddr e / g.layout.blk k * g.layout.blk k + x % g.layout.blk k
  attr := Tte.attr e
  ns := Tte.ns e = 1 ∨ ∃ w ∈ path, Tte.nstab w = 1
  ap1 := Tte.ap e % 2 = 1 ∧ ∀ w ∈ path, Tte.aptab w % 2 = 0
  ap2 := Tte.ap e / 2 = 1 ∨ ∃ w ∈ path, Tte.aptab w / 2 = 1
  sh := Tte.sh e
  af := Tte.af e = 1
  nG := Tte.nG e = 1
  pxn := Tte.pxn e = 1 ∨ ∃ w ∈ path, Tte.pxntab w = 1
  uxn := Tte.uxn e = 1 ∨ ∃ w ∈ path, Tte.uxntab w = 1

/-- The architectural walk for the offset `x` into the translated space. -/
def translate (g : Granule) (mem : ℕ → ℕ) (root x : ℕ) : Option Translation :=
  let (k, e) := look g.layout mem root x
  if IsLeaf k e then
    some (leafTranslation g (links g.layout mem root x) k e x)
  else none

/-- `vm_protect_t`. -/
structure Prot where
  read : Bool
  write : Bool
  exec : Bool
  device : Bool
  kernOnly : Bool
  pagingInfo : Bool
deriving DecidableEq, Repr

end PongoOS
