import PongoOS.Mm.MapTranslation
import PongoOS.Mm.VmSpace

/-!
# `tte_walk_get`

The loop has three branches, for links, for paging information and for leaves.
An entry that is none of these does not end it: the walk goes on at the next
level in the table it is in, with an index for another table.
-/

namespace PongoOS

open RadixTable

namespace Mm

/-- The loop, which has come to `ttb` with `levels` rounds left. -/
def tteWalk (g : Granule) (mem : ℕ → ℕ) (va : ℕ) : ℕ → ℕ → ℕ → Option ℕ
  | 0, _, _ => none
  | levels + 1, bits, ttb =>
      let slot := ttb + 8 * (va / 2 ^ (bits - g.ttBits) % 2 ^ g.ttBits)
      let tte := mem slot
      if Tte.valid tte ∧ Tte.table tte ∧ levels ≠ 0 then
        tteWalk g mem va levels (bits - g.ttBits) (Tte.oaAddr tte)
      else if ¬ Tte.valid tte ∧ Tte.table tte then some slot
      else if Tte.valid tte ∧ (Tte.table tte ↔ levels = 0) then some slot
      else tteWalk g mem va levels (bits - g.ttBits) ttb

end Mm

namespace Vm

/-- `va & 0x7000000000000000`. -/
def isTt1 (va : ℕ) : Bool := va / 2 ^ 60 % 8 ≠ 0

/-- The table that the walk of `va` starts from. -/
def walkRoot (a va : ℕ) (s : Vm) : ℕ :=
  if isTt1 va then (s.space a).ttbr1 else (s.space a).ttbr0

/-- `tte_walk_get`, with the address of the entry. -/
def tteWalkGet (a va : ℕ) (s : Vm) : Option ℕ :=
  let g := s.mm.granule
  let bits := 64 - g.tsz
  Mm.tteWalk g s.mm.mem (Mm.spaceOffset g (isTt1 va) va)
    ((bits - (g.ttBits + 3)) / g.ttBits) bits (s.walkRoot a va)

end Vm

namespace Mm

/-- The entry ends a walk: it maps memory, or it is paging information. -/
def Governs (k e : ℕ) : Prop :=
  IsLeaf k e ∨ (¬ Tte.valid e ∧ Tte.table e)

def Vacant (e : ℕ) : Prop := ¬ Tte.valid e ∧ ¬ Tte.table e

/-- Where the loop goes behind a vacant entry. -/
inductive StrayOn (g : Granule) (mem : ℕ → ℕ) (root x : ℕ) : ℕ → ℕ → Prop where
  | leave {k t : ℕ} : TableOn g.layout mem root x (k + 1) t →
      Vacant (mem (g.layout.slot (k + 1) t x)) → StrayOn g mem root x k t
  | stay {k t : ℕ} : StrayOn g mem root x (k + 1) t →
      Vacant (mem (g.layout.slot (k + 1) t x)) → StrayOn g mem root x k t
  | link {k t u : ℕ} : StrayOn g mem root x (k + 1) t →
      g.layout.child (mem (g.layout.slot (k + 1) t x)) = some u →
      StrayOn g mem root x k u

section Walk

variable {g : Granule} {mem : ℕ → ℕ} {root x k t u e : ℕ}

/-- The loop at the table `t` of level `k`. -/
def walkFrom (g : Granule) (mem : ℕ → ℕ) (x k t : ℕ) : Option ℕ :=
  tteWalk g mem x (k + 1) (g.bitsAt k) t

theorem child_eq_some_iff : g.layout.child e = some u ↔
    Tte.valid e ∧ Tte.table e ∧ u = Tte.oaAddr e := by
  unfold Granule.layout
  simp only
  split
  · rename_i h
    simp only [Option.some.injEq]
    exact ⟨fun heq => ⟨h.1, h.2, heq.symm⟩, fun h => h.2.2.symm⟩
  · rename_i h
    exact ⟨nofun, fun h' => absurd ⟨h'.1, h'.2.1⟩ h⟩

/-- One round of the loop. -/
theorem walkFrom_eq : walkFrom g mem x k t =
    if Tte.valid (mem (g.layout.slot k t x)) ∧
        Tte.table (mem (g.layout.slot k t x)) ∧ k ≠ 0 then
      tteWalk g mem x k (g.bitsAt k - g.ttBits)
        (Tte.oaAddr (mem (g.layout.slot k t x)))
    else if ¬ Tte.valid (mem (g.layout.slot k t x)) ∧
        Tte.table (mem (g.layout.slot k t x)) then
      some (g.layout.slot k t x)
    else if IsLeaf k (mem (g.layout.slot k t x)) then
      some (g.layout.slot k t x)
    else tteWalk g mem x k (g.bitsAt k - g.ttBits) t := by
  rw [walkFrom, tteWalk, g.two_pow_bitsAt]
  rfl

theorem walkFrom_governs (h : Governs k (mem (g.layout.slot k t x))) :
    walkFrom g mem x k t = some (g.layout.slot k t x) := by
  rw [walkFrom_eq]
  rcases h with hleaf | hinfo
  · rw [if_neg fun h => h.2.2 (hleaf.2.mp h.2.1),
      if_neg fun h => h.1 hleaf.1, if_pos hleaf]
  · rw [if_neg fun h => hinfo.1 h.1, if_pos hinfo]

theorem walkFrom_link
    (h : g.layout.child (mem (g.layout.slot (k + 1) t x)) = some u) :
    walkFrom g mem x (k + 1) t = walkFrom g mem x k u := by
  obtain ⟨hvalid, htable, rfl⟩ := child_eq_some_iff.mp h
  rw [walkFrom_eq, if_pos ⟨hvalid, htable, Nat.succ_ne_zero k⟩,
    g.bitsAt_succ_sub, walkFrom]

theorem walkFrom_vacant (h : Vacant (mem (g.layout.slot (k + 1) t x))) :
    walkFrom g mem x (k + 1) t = walkFrom g mem x k t := by
  rw [walkFrom_eq, if_neg fun h' => h.1 h'.1, if_neg fun h' => h.2 h'.2,
    if_neg fun h' => h.1 h'.1, g.bitsAt_succ_sub, walkFrom]

theorem walkFrom_last (h : ¬ Governs 0 (mem (g.layout.slot 0 t x))) :
    walkFrom g mem x 0 t = none := by
  rw [walkFrom_eq, if_neg fun h' => h'.2.2 rfl,
    if_neg fun h' => h (.inr h'), if_neg fun h' => h (.inl h')]
  rfl

/-- What a round finds. -/
theorem entry_cases (g : Granule) (k e : ℕ) : Governs k e ∨
    (∃ j u, k = j + 1 ∧ g.layout.child e = some u) ∨
    (∃ j, k = j + 1 ∧ Vacant e) ∨ (k = 0 ∧ ¬ Governs 0 e) := by
  by_cases hgoverns : Governs k e
  · exact .inl hgoverns
  rcases k with _ | j
  · exact .inr (.inr (.inr ⟨rfl, hgoverns⟩))
  by_cases hvalid : Tte.valid e
  · by_cases htable : Tte.table e
    · exact .inr (.inl ⟨j, _, rfl, child_eq_some_iff.mpr ⟨hvalid, htable, rfl⟩⟩)
    · exact absurd (.inl ⟨hvalid, fun h => absurd h htable,
        fun h => absurd h (Nat.succ_ne_zero j)⟩) hgoverns
  · refine .inr (.inr (.inl ⟨j, rfl, hvalid, fun htable => ?_⟩))
    exact hgoverns (.inr ⟨hvalid, htable⟩)

/-- The loop comes to every table on the way of the lookup. -/
theorem walkFrom_tableOn (h : TableOn g.layout mem root x k t) :
    walkFrom g mem x g.topLevel root = walkFrom g mem x k t := by
  induction h with
  | root => rfl
  | next _ hchild ih => exact ih.trans (walkFrom_link hchild)

theorem walkFrom_strayOn (h : StrayOn g mem root x k t) :
    walkFrom g mem x g.topLevel root = walkFrom g mem x k t := by
  induction h with
  | leave hon hvacant =>
      exact (walkFrom_tableOn hon).trans (walkFrom_vacant hvacant)
  | stay _ hvacant ih => exact ih.trans (walkFrom_vacant hvacant)
  | link _ hchild ih => exact ih.trans (walkFrom_link hchild)

/-- The loop strays from a vacant entry of the lookup. -/
theorem StrayOn.exists_vacant (h : StrayOn g mem root x k t) :
    ∃ j u, TableOn g.layout mem root x (j + 1) u ∧
      Vacant (mem (g.layout.slot (j + 1) u x)) := by
  induction h with
  | @leave k t hon hvacant => exact ⟨k, t, hon, hvacant⟩
  | stay _ _ ih => exact ih
  | link _ _ ih => exact ih

/-- Where nothing on the stray way ends it, the loop finds nothing. -/
theorem walkFrom_stray_none
    (hnone : ∀ k t, StrayOn g mem root x k t →
      ¬ Governs k (mem (g.layout.slot k t x)))
    (h : StrayOn g mem root x k t) : walkFrom g mem x k t = none := by
  induction k generalizing t with
  | zero => exact walkFrom_last (hnone 0 t h)
  | succ k ih =>
      rcases entry_cases g (k + 1) (mem (g.layout.slot (k + 1) t x)) with
        hgoverns | ⟨j, u, hj, hchild⟩ | ⟨j, hj, hvacant⟩ | ⟨hzero, -⟩
      · exact absurd hgoverns (hnone _ t h)
      · exact (walkFrom_link hchild).trans (ih (.link h hchild))
      · exact (walkFrom_vacant hvacant).trans (ih (.stay h hvacant))
      · cases hzero

theorem Vacant.not_governs (h : Vacant e) : ¬ Governs k e := by
  rintro (hleaf | hinfo)
  · exact h.1 hleaf.1
  · exact h.2 hinfo.2

end Walk

end Mm

namespace Vm

open Mm

/-- The result is the entry at which the walk of `va` ends, and there is none
where the walk meets a vacant entry. -/
structure WalkOf (a va : ℕ) (s : Vm) (result : Option ℕ) : Prop where
  governs : ∀ p, result = some p ↔ ∃ k t,
    TableOn s.mm.granule.layout s.mm.mem (s.walkRoot a va)
        (spaceOffset s.mm.granule (isTt1 va) va) k t ∧
      p = s.mm.granule.layout.slot k t
        (spaceOffset s.mm.granule (isTt1 va) va) ∧
      Governs k (s.mm.mem p)
  vacant : ∀ k t,
    TableOn s.mm.granule.layout s.mm.mem (s.walkRoot a va)
        (spaceOffset s.mm.granule (isTt1 va) va) k t →
      Vacant (s.mm.mem (s.mm.granule.layout.slot k t
        (spaceOffset s.mm.granule (isTt1 va) va))) → result = none

theorem tteWalkGet_eq (a va : ℕ) (s : Vm) : tteWalkGet a va s =
    walkFrom s.mm.granule s.mm.mem
      (spaceOffset s.mm.granule (isTt1 va) va) s.mm.granule.topLevel
      (s.walkRoot a va) := by
  unfold tteWalkGet walkFrom
  cases s.mm.granule <;> rfl

/-- The loop is the walk where nothing behind a vacant entry ends it. -/
theorem tteWalkGet_iff (a va : ℕ) (s : Vm) :
    WalkOf a va s (tteWalkGet a va s) ↔
      ∀ k t, StrayOn s.mm.granule s.mm.mem (s.walkRoot a va)
          (spaceOffset s.mm.granule (isTt1 va) va) k t →
        ¬ Governs k (s.mm.mem (s.mm.granule.layout.slot k t
          (spaceOffset s.mm.granule (isTt1 va) va))) := by
  rw [tteWalkGet_eq]
  constructor
  · intro hspec k t hstray hgoverns
    obtain ⟨j, u, hon, hvacant⟩ := hstray.exists_vacant
    have hnone := hspec.vacant (j + 1) u hon hvacant
    rw [walkFrom_strayOn hstray, walkFrom_governs hgoverns] at hnone
    cases hnone
  · intro hnone
    have hvacant : ∀ k t, TableOn s.mm.granule.layout s.mm.mem
        (s.walkRoot a va) (spaceOffset s.mm.granule (isTt1 va) va) k t →
        Vacant (s.mm.mem (s.mm.granule.layout.slot k t
          (spaceOffset s.mm.granule (isTt1 va) va))) →
        walkFrom s.mm.granule s.mm.mem
          (spaceOffset s.mm.granule (isTt1 va) va) s.mm.granule.topLevel
          (s.walkRoot a va) = none := by
      intro k t hon hvacant
      rw [walkFrom_tableOn hon]
      rcases k with _ | k
      · exact walkFrom_last hvacant.not_governs
      · rw [walkFrom_vacant hvacant]
        exact walkFrom_stray_none hnone (.leave hon hvacant)
    refine ⟨fun p => ⟨fun hfound => ?_, ?_⟩, hvacant⟩
    · obtain ⟨k, e, t, hon, rfl, hstop⟩ : ∃ k e, Stops s.mm.granule.layout
          s.mm.mem (s.walkRoot a va)
          (spaceOffset s.mm.granule (isTt1 va) va) k e :=
        ⟨_, _, stops_look _ _ _ _⟩
      rw [walkFrom_tableOn hon] at hfound
      rcases entry_cases s.mm.granule k (s.mm.mem (s.mm.granule.layout.slot k t
          (spaceOffset s.mm.granule (isTt1 va) va))) with
        hgoverns | ⟨j, u, rfl, hchild⟩ | ⟨j, rfl, hempty⟩ | ⟨rfl, hlast⟩
      · rw [walkFrom_governs hgoverns] at hfound
        cases hfound
        exact ⟨k, t, hon, rfl, hgoverns⟩
      · rw [hstop.resolve_left (Nat.succ_ne_zero j)] at hchild
        cases hchild
      · have hnone := hvacant (j + 1) t hon hempty
        rw [walkFrom_tableOn hon, hfound] at hnone
        cases hnone
      · rw [walkFrom_last hlast] at hfound
        cases hfound
    · rintro ⟨k, t, hon, rfl, hgoverns⟩
      rw [walkFrom_tableOn hon, walkFrom_governs hgoverns]

/-- A root table whose sixth entry is the only link. -/
def oneLinkVm : Vm where
  mm := { bootExample with
    mem := fun a => if a = 0x817ff8028 then Tte.link 0x817ff4000 else 0 }
  asidTable := fun _ => false
  space := fun _ => ⟨0x817ff8000, 0x817ff0000, fun _ => false, 1, 0, 0⟩
  live := ∅

/-- No entry of the first table covers page 5, and the link is found. -/
theorem not_walkOf_oneLinkVm :
    ¬ WalkOf kernel 0x14000 oneLinkVm (tteWalkGet kernel 0x14000 oneLinkVm) := by
  intro h
  have hnone := h.vacant 1 0x817ff8000 TableOn.root ⟨by decide, by decide⟩
  exact absurd hnone (by decide +kernel)

end Vm

end PongoOS
