import Mathlib.Logic.Function.Basic
import Mathlib.Data.Set.Basic
import Mathlib.Data.Nat.Basic
import Mathlib.Tactic.Common
import Mathlib.Algebra.Order.Group.Nat

/-!
# Radix tables in memory

A radix table maps keys to entries through tables of `fan` words each.  A table
at level `k` is indexed by the `k`-th digit of the key; its entry is either the
address of a table one level down or the place where the lookup stops.  Tables
live in a flat memory of words, eight bytes apart.

`TableOn L mem root x k t` says that looking up the key `x` from `root` visits
the table `t` at level `k`.  A `Forest` is a memory in which the tables below a
set of roots do not overlap.  The results say what each of the following does
to every lookup: a change of memory outside the tables, the store of an entry
that stops the lookup, and the store of a link to an empty table.
-/

namespace RadixTable

structure Layout where
  /-- Keys covered by one entry of the last level. -/
  page : ℕ
  /-- Entries of a table. -/
  fan : ℕ
  /-- The level of a root. -/
  top : ℕ
  /-- The table an entry points to. -/
  child : ℕ → Option ℕ
  page_pos : 0 < page
  fan_pos : 0 < fan

namespace Layout

variable (L : Layout)

/-- Keys covered by one entry of level `k`. -/
def blk (k : ℕ) : ℕ := L.page * L.fan ^ k

/-- Keys covered by a root. -/
def space : ℕ := L.blk (L.top + 1)

def idx (k x : ℕ) : ℕ := x / L.blk k % L.fan

/-- The address of the entry for `x` in the table `t` of level `k`. -/
def slot (k t x : ℕ) : ℕ := t + 8 * L.idx k x

theorem blk_pos (k : ℕ) : 0 < L.blk k :=
  Nat.mul_pos L.page_pos (Nat.pow_pos L.fan_pos)

theorem blk_zero : L.blk 0 = L.page := by
  rw [blk, Nat.pow_zero, Nat.mul_one]

theorem blk_succ (k : ℕ) : L.blk (k + 1) = L.blk k * L.fan := by
  rw [blk, blk, Nat.pow_succ, Nat.mul_assoc]

theorem blk_dvd {j k : ℕ} (hjk : j ≤ k) : L.blk j ∣ L.blk k :=
  Nat.mul_dvd_mul_left _ (Nat.pow_dvd_pow _ hjk)

theorem blk_le {j k : ℕ} (hjk : j ≤ k) : L.blk j ≤ L.blk k :=
  Nat.le_of_dvd (L.blk_pos k) (L.blk_dvd hjk)

theorem page_dvd_blk (k : ℕ) : L.page ∣ L.blk k := Nat.dvd_mul_right _ _

theorem idx_lt (k x : ℕ) : L.idx k x < L.fan := Nat.mod_lt _ L.fan_pos

/-- Keys in one block of a level are in one block of every higher level. -/
theorem div_blk_eq {j k x y : ℕ} (hjk : j ≤ k)
    (hxy : x / L.blk j = y / L.blk j) : x / L.blk k = y / L.blk k := by
  obtain ⟨m, hm⟩ := L.blk_dvd hjk
  rw [hm, ← Nat.div_div_eq_div_mul, ← Nat.div_div_eq_div_mul, hxy]

theorem idx_eq {k x y : ℕ} (hxy : x / L.blk k = y / L.blk k) :
    L.idx k x = L.idx k y := by
  rw [idx, idx, hxy]

/-- A block is determined by the block around it and a digit. -/
theorem div_blk_eq_of_idx {k x y : ℕ}
    (hxy : x / L.blk (k + 1) = y / L.blk (k + 1))
    (hidx : L.idx k x = L.idx k y) : x / L.blk k = y / L.blk k := by
  rw [blk_succ, ← Nat.div_div_eq_div_mul, ← Nat.div_div_eq_div_mul] at hxy
  rw [← Nat.div_add_mod (x / L.blk k) L.fan,
    ← Nat.div_add_mod (y / L.blk k) L.fan, hxy]
  exact congrArg _ hidx

theorem slot_eq {k t x y : ℕ} (hxy : x / L.blk k = y / L.blk k) :
    L.slot k t x = L.slot k t y := by
  rw [slot, slot, L.idx_eq hxy]

/-- Aligned tables share no entry. -/
theorem slot_injective {j k t u x y : ℕ} (ht : 8 * L.fan ∣ t)
    (hu : 8 * L.fan ∣ u) (hslot : L.slot j t x = L.slot k u y) :
    t = u ∧ L.idx j x = L.idx k y := by
  obtain ⟨a, rfl⟩ := ht
  obtain ⟨b, rfl⟩ := hu
  have hx := L.idx_lt j x
  have hy := L.idx_lt k y
  unfold slot at hslot
  have heq : L.fan * a + L.idx j x = L.fan * b + L.idx k y := by
    rw [Nat.mul_assoc, Nat.mul_assoc] at hslot
    omega
  have hab : a = b := by
    have hdiv := congrArg (· / L.fan) heq
    simpa [Nat.mul_add_div L.fan_pos, Nat.div_eq_of_lt hx,
      Nat.div_eq_of_lt hy] using hdiv
  subst hab
  exact ⟨rfl, Nat.add_left_cancel heq⟩

end Layout

/-! ## Lookups -/

/-- The lookup of `x` from `root` visits the table `t` at level `k`. -/
inductive TableOn (L : Layout) (mem : ℕ → ℕ) (root x : ℕ) : ℕ → ℕ → Prop where
  | root : TableOn L mem root x L.top root
  | next {k t u : ℕ} : TableOn L mem root x (k + 1) t →
      L.child (mem (L.slot (k + 1) t x)) = some u → TableOn L mem root x k u

/-- The lookup of `x` from `root` stops at level `k` with entry `e`. -/
def Stops (L : Layout) (mem : ℕ → ℕ) (root x k e : ℕ) : Prop :=
  ∃ t, TableOn L mem root x k t ∧ mem (L.slot k t x) = e ∧
    (k = 0 ∨ L.child e = none)

/-- The lookup of `x` from the table `t` of level `k`. -/
def walk (L : Layout) (mem : ℕ → ℕ) : ℕ → ℕ → ℕ → ℕ × ℕ
  | 0, t, x => (0, mem (L.slot 0 t x))
  | k + 1, t, x =>
      match L.child (mem (L.slot (k + 1) t x)) with
      | some u => walk L mem k u x
      | none => (k + 1, mem (L.slot (k + 1) t x))

/-- The links that the lookup of `x` from the table `t` of level `k`
follows. -/
def walkLinks (L : Layout) (mem : ℕ → ℕ) : ℕ → ℕ → ℕ → List ℕ
  | 0, _, _ => []
  | k + 1, t, x =>
      match L.child (mem (L.slot (k + 1) t x)) with
      | some u => mem (L.slot (k + 1) t x) :: walkLinks L mem k u x
      | none => []

section Lookup

variable {L : Layout} {mem mem' : ℕ → ℕ} {root r x y k j t u e : ℕ}

theorem TableOn.le_top (h : TableOn L mem root x k t) : k ≤ L.top := by
  induction h with
  | root => exact le_rfl
  | next _ _ ih => exact Nat.le_of_succ_le ih

/-- A lookup visits one table at each level. -/
theorem TableOn.unique (ht : TableOn L mem root x k t)
    (hu : TableOn L mem root x k u) : t = u := by
  induction ht generalizing u with
  | root =>
      cases hu with
      | root => rfl
      | next hu _ => exact absurd hu.le_top (Nat.not_succ_le_self _)
  | next ht hchild ih =>
      cases hu with
      | root => exact absurd ht.le_top (Nat.not_succ_le_self _)
      | next hu hchild' =>
          rw [ih hu] at hchild
          exact Option.some.inj (hchild.symm.trans hchild')

/-- Between a visited table and the root, every level is visited. -/
theorem TableOn.above (h : TableOn L mem root x j u) (hjk : j ≤ k)
    (hk : k ≤ L.top) : ∃ t, TableOn L mem root x k t ∧
      (j < k → ∃ v, L.child (mem (L.slot k t x)) = some v) := by
  induction h with
  | root =>
      obtain rfl := Nat.le_antisymm hk hjk
      exact ⟨root, TableOn.root, fun hlt => absurd hlt (lt_irrefl _)⟩
  | @next j t u ht hchild ih =>
      rcases Nat.eq_or_lt_of_le hjk with rfl | hlt
      · exact ⟨u, ht.next hchild, fun hlt => absurd hlt (lt_irrefl _)⟩
      rcases Nat.eq_or_lt_of_le (Nat.succ_le_of_lt hlt) with rfl | hlt'
      · exact ⟨t, ht, fun _ => ⟨u, hchild⟩⟩
      · obtain ⟨v, hv, hnext⟩ := ih hlt
        exact ⟨v, hv, fun _ => hnext hlt'⟩

/-- Keys in one block visit the same tables above that block. -/
theorem TableOn.congr_key (h : TableOn L mem root x k t)
    (hxy : x / L.blk (k + 1) = y / L.blk (k + 1)) :
    TableOn L mem root y k t := by
  induction h with
  | root => exact TableOn.root
  | next _ hchild ih =>
      refine (ih (L.div_blk_eq (Nat.le_succ _) hxy)).next ?_
      rwa [← L.slot_eq hxy]

/-- A lookup stops at one place. -/
theorem Stops.unique {k' e' : ℕ} (h : Stops L mem root x k e)
    (h' : Stops L mem root x k' e') : k = k' ∧ e = e' := by
  have hle : ∀ {k k' e e' : ℕ}, Stops L mem root x k e →
      Stops L mem root x k' e' → k ≤ k' := by
    rintro k k' e e' ⟨t, ht, rfl, hstop⟩ ⟨t', ht', -, -⟩
    by_contra hlt
    push Not at hlt
    obtain ⟨v, hv, hnext⟩ := ht'.above hlt.le ht.le_top
    obtain ⟨w, hw⟩ := hnext hlt
    rw [hv.unique ht] at hw
    rcases hstop with hzero | hnone
    · omega
    · rw [hnone] at hw
      cases hw
  obtain rfl := Nat.le_antisymm (hle h h') (hle h' h)
  obtain ⟨t, ht, rfl, -⟩ := h
  obtain ⟨t', ht', rfl, -⟩ := h'
  rw [ht.unique ht']
  exact ⟨rfl, rfl⟩

theorem Stops.congr_key (h : Stops L mem root x k e)
    (hxy : x / L.blk k = y / L.blk k) : Stops L mem root y k e := by
  obtain ⟨t, ht, rfl, hstop⟩ := h
  refine ⟨t, ht.congr_key (L.div_blk_eq (Nat.le_succ k) hxy), ?_, hstop⟩
  rw [L.slot_eq hxy]

theorem TableOn.walk_stops (h : TableOn L mem root x k t) :
    Stops L mem root x (walk L mem k t x).1 (walk L mem k t x).2 := by
  induction k generalizing t with
  | zero => exact ⟨t, h, rfl, Or.inl rfl⟩
  | succ k ih =>
      unfold walk
      cases hchild : L.child (mem (L.slot (k + 1) t x)) with
      | some u => exact ih (h.next hchild)
      | none => exact ⟨t, h, rfl, Or.inr hchild⟩

/-- Where the lookup of `x` from `root` stops, and with which entry. -/
def look (L : Layout) (mem : ℕ → ℕ) (root x : ℕ) : ℕ × ℕ :=
  walk L mem L.top root x

theorem stops_look (L : Layout) (mem : ℕ → ℕ) (root x : ℕ) :
    Stops L mem root x (look L mem root x).1 (look L mem root x).2 :=
  TableOn.root.walk_stops

theorem stops_iff : Stops L mem root x k e ↔ look L mem root x = (k, e) := by
  constructor
  · intro h
    obtain ⟨hk, he⟩ := (stops_look L mem root x).unique h
    rw [← hk, ← he]
  · intro h
    have hstop := stops_look L mem root x
    rwa [h] at hstop

/-- The links that the lookup of `x` from `root` follows. -/
def links (L : Layout) (mem : ℕ → ℕ) (root x : ℕ) : List ℕ :=
  walkLinks L mem L.top root x

/-- A lookup depends only on the words it reads. -/
theorem TableOn.walk_congr (h : TableOn L mem root x k t)
    (hsame : ∀ j u, TableOn L mem root x j u →
      mem' (L.slot j u x) = mem (L.slot j u x)) :
    walk L mem' k t x = walk L mem k t x ∧
      walkLinks L mem' k t x = walkLinks L mem k t x := by
  induction k generalizing t with
  | zero =>
      refine ⟨?_, rfl⟩
      rw [walk, walk, hsame 0 t h]
  | succ k ih =>
      unfold walk walkLinks
      rw [hsame (k + 1) t h]
      cases hchild : L.child (mem (L.slot (k + 1) t x)) with
      | some u =>
          obtain ⟨hwalk, hlinks⟩ := ih (h.next hchild)
          exact ⟨hwalk, congrArg _ hlinks⟩
      | none => exact ⟨rfl, rfl⟩

theorem TableOn.mem_walkLinks (h : TableOn L mem root x k t) {w : ℕ}
    (hw : w ∈ walkLinks L mem k t x) :
    ∃ j u c, TableOn L mem root x (j + 1) u ∧
      mem (L.slot (j + 1) u x) = w ∧ L.child w = some c := by
  induction k generalizing t with
  | zero => exact absurd hw List.not_mem_nil
  | succ k ih =>
      unfold walkLinks at hw
      cases hchild : L.child (mem (L.slot (k + 1) t x)) with
      | some u =>
          rw [hchild] at hw
          rcases List.mem_cons.mp hw with rfl | hw
          · exact ⟨k, t, u, h, rfl, hchild⟩
          · exact ih (h.next hchild) hw
      | none =>
          rw [hchild] at hw
          exact absurd hw List.not_mem_nil

end Lookup

/-! ## Forests -/

/-- `t` is a table below one of the roots. -/
def IsTable (L : Layout) (mem : ℕ → ℕ) (roots : Set ℕ) (t : ℕ) : Prop :=
  ∃ r ∈ roots, ∃ x k, x < L.space ∧ TableOn L mem r x k t

/-- The tables below the roots are aligned and each is reached in one way. -/
structure Forest (L : Layout) (mem : ℕ → ℕ) (roots : Set ℕ) : Prop where
  aligned : ∀ t, IsTable L mem roots t → 8 * L.fan ∣ t
  disjoint : ∀ r ∈ roots, ∀ r' ∈ roots, ∀ x x' k k' t,
    x < L.space → x' < L.space → TableOn L mem r x k t →
    TableOn L mem r' x' k' t →
    r = r' ∧ k = k' ∧ x / L.blk (k + 1) = x' / L.blk (k' + 1)

/-- The words of all tables are the same in both memories. -/
def SameTables (L : Layout) (roots : Set ℕ) (mem mem' : ℕ → ℕ) : Prop :=
  ∀ t, IsTable L mem roots t → ∀ i, i < L.fan →
    mem' (t + 8 * i) = mem (t + 8 * i)

/-- Every link that a lookup can follow satisfies `P`. -/
def AllLinks (L : Layout) (mem : ℕ → ℕ) (roots : Set ℕ) (P : ℕ → Prop) :
    Prop :=
  ∀ r ∈ roots, ∀ x k t u, x < L.space → TableOn L mem r x (k + 1) t →
    L.child (mem (L.slot (k + 1) t x)) = some u →
    P (mem (L.slot (k + 1) t x))

theorem AllLinks.links {L : Layout} {mem : ℕ → ℕ} {roots : Set ℕ}
    {P : ℕ → Prop} (h : AllLinks L mem roots P) {r x : ℕ} (hr : r ∈ roots)
    (hx : x < L.space) {w : ℕ} (hw : w ∈ links L mem r x) : P w := by
  obtain ⟨k, t, u, ht, rfl, hchild⟩ := TableOn.root.mem_walkLinks hw
  exact h r hr x k t u hx ht hchild

section SameTables

variable {L : Layout} {roots : Set ℕ} {mem mem' : ℕ → ℕ} {r x k t e : ℕ}

theorem SameTables.slot (h : SameTables L roots mem mem') (hr : r ∈ roots)
    (hx : x < L.space) (ht : TableOn L mem r x k t) (y : ℕ) :
    mem' (L.slot k t y) = mem (L.slot k t y) :=
  h t ⟨r, hr, x, k, hx, ht⟩ _ (L.idx_lt k y)

theorem SameTables.tableOn (h : SameTables L roots mem mem') (hr : r ∈ roots)
    (hx : x < L.space) :
    TableOn L mem' r x k t ↔ TableOn L mem r x k t := by
  constructor
  · intro ht
    induction ht with
    | root => exact TableOn.root
    | next _ hchild ih => exact ih.next (h.slot hr hx ih x ▸ hchild)
  · intro ht
    induction ht with
    | root => exact TableOn.root
    | next ht hchild ih => exact ih.next (by rwa [h.slot hr hx ht x])

theorem SameTables.stops (h : SameTables L roots mem mem') (hr : r ∈ roots)
    (hx : x < L.space) :
    Stops L mem' r x k e ↔ Stops L mem r x k e := by
  unfold Stops
  refine exists_congr fun t => ?_
  rw [h.tableOn hr hx]
  refine and_congr_right fun ht => ?_
  rw [h.slot hr hx ht x]

theorem SameTables.isTable (h : SameTables L roots mem mem') :
    IsTable L mem' roots t ↔ IsTable L mem roots t := by
  constructor
  · rintro ⟨r, hr, x, k, hx, ht⟩
    exact ⟨r, hr, x, k, hx, (h.tableOn hr hx).mp ht⟩
  · rintro ⟨r, hr, x, k, hx, ht⟩
    exact ⟨r, hr, x, k, hx, (h.tableOn hr hx).mpr ht⟩

theorem SameTables.forest (h : SameTables L roots mem mem')
    (hF : Forest L mem roots) : Forest L mem' roots := by
  refine ⟨fun t ht => hF.aligned t (h.isTable.mp ht), ?_⟩
  intro r hr r' hr' x x' k k' t hx hx' ht ht'
  exact hF.disjoint r hr r' hr' x x' k k' t hx hx'
    ((h.tableOn hr hx).mp ht) ((h.tableOn hr' hx').mp ht')

theorem SameTables.path (h : SameTables L roots mem mem') (hr : r ∈ roots)
    (hx : x < L.space) :
    look L mem' r x = look L mem r x ∧ links L mem' r x = links L mem r x :=
  TableOn.root.walk_congr fun _ _ hu => h.slot hr hx hu x

theorem SameTables.allLinks (h : SameTables L roots mem mem')
    {P : ℕ → Prop} (hP : AllLinks L mem roots P) :
    AllLinks L mem' roots P := by
  intro r hr x k t u hx ht hchild
  rw [h.tableOn hr hx] at ht
  rw [h.slot hr hx ht x] at hchild ⊢
  exact hP r hr x k t u hx ht hchild

theorem SameTables.refl : SameTables L roots mem mem := fun _ _ _ _ => rfl

theorem SameTables.trans {mem'' : ℕ → ℕ} (h : SameTables L roots mem mem')
    (h' : SameTables L roots mem' mem'') : SameTables L roots mem mem'' := by
  intro t ht i hi
  rw [h' t (h.isTable.mpr ht) i hi, h t ht i hi]

end SameTables

/-! ## Storing an entry -/

section Store

variable {L : Layout} {roots : Set ℕ} {mem : ℕ → ℕ} {r x k t v : ℕ}
  {r' y j u e : ℕ}

/-- Only one lookup position reads a given entry. -/
theorem Forest.slot_hit (hF : Forest L mem roots) (hr : r ∈ roots)
    (hx : x < L.space) (ht : TableOn L mem r x k t) (hr' : r' ∈ roots)
    (hy : y < L.space) (hu : TableOn L mem r' y j u)
    (hslot : L.slot j u y = L.slot k t x) :
    r' = r ∧ j = k ∧ y / L.blk k = x / L.blk k := by
  obtain ⟨rfl, hidx⟩ := L.slot_injective
    (hF.aligned u ⟨r', hr', y, j, hy, hu⟩)
    (hF.aligned t ⟨r, hr, x, k, hx, ht⟩) hslot
  obtain ⟨rfl, rfl, hdiv⟩ :=
    hF.disjoint r' hr' r hr y x j k u hy hx hu ht
  exact ⟨rfl, rfl, L.div_blk_eq_of_idx hdiv hidx⟩

/-- Storing an entry concerns only the lookups that go through it. -/
theorem Forest.tableOn_store (hF : Forest L mem roots) (hr : r ∈ roots)
    (hx : x < L.space) (ht : TableOn L mem r x k t) (hr' : r' ∈ roots)
    (hy : y < L.space)
    (hnot : ¬ (r' = r ∧ j < k ∧ y / L.blk k = x / L.blk k)) :
    TableOn L (Function.update mem (L.slot k t x) v) r' y j u ↔
      TableOn L mem r' y j u := by
  have hsame : ∀ {i w : ℕ}, TableOn L mem r' y (i + 1) w →
      ¬ (r' = r ∧ i < k ∧ y / L.blk k = x / L.blk k) →
      Function.update mem (L.slot k t x) v (L.slot (i + 1) w y) =
        mem (L.slot (i + 1) w y) := by
    intro i w hw hnot'
    refine Function.update_of_ne (fun hslot => ?_) _ _
    obtain ⟨hroot, hk, hdiv⟩ := hF.slot_hit hr hx ht hr' hy hw hslot
    exact hnot' ⟨hroot, by omega, hdiv⟩
  constructor
  · intro hu
    induction hu with
    | root => exact TableOn.root
    | next _ hchild ih =>
        have hw := ih fun hbelow => hnot ⟨hbelow.1, by omega, hbelow.2.2⟩
        exact hw.next (hsame hw hnot ▸ hchild)
  · intro hu
    induction hu with
    | root => exact TableOn.root
    | next hw hchild ih =>
        have hw' := ih fun hbelow => hnot ⟨hbelow.1, by omega, hbelow.2.2⟩
        exact hw'.next (by rwa [hsame hw hnot])

theorem Forest.path_store (hF : Forest L mem roots) (hr : r ∈ roots)
    (hx : x < L.space) (ht : TableOn L mem r x k t) (hr' : r' ∈ roots)
    (hy : y < L.space) (hnot : ¬ (r' = r ∧ y / L.blk k = x / L.blk k)) :
    look L (Function.update mem (L.slot k t x) v) r' y = look L mem r' y ∧
      links L (Function.update mem (L.slot k t x) v) r' y =
        links L mem r' y := by
  refine TableOn.root.walk_congr fun i w hw => ?_
  refine Function.update_of_ne (fun hslot => ?_) _ _
  obtain ⟨hroot, -, hdiv⟩ := hF.slot_hit hr hx ht hr' hy hw hslot
  exact hnot ⟨hroot, hdiv⟩

/-! ## An entry that stops the lookup -/

/-- The stored entry is what every lookup in its block finds. -/
theorem Forest.stops_leaf (hF : Forest L mem roots) (hr : r ∈ roots)
    (hx : x < L.space) (ht : TableOn L mem r x k t)
    (hv : k = 0 ∨ L.child v = none) (hy : y < L.space)
    (hyx : y / L.blk k = x / L.blk k) :
    Stops L (Function.update mem (L.slot k t x) v) r y k v := by
  refine ⟨t, ?_, ?_, hv⟩
  · rw [hF.tableOn_store hr hx ht hr hy fun h => lt_irrefl _ h.2.1]
    exact ht.congr_key (L.div_blk_eq (Nat.le_succ k) hyx.symm)
  · rw [L.slot_eq hyx, Function.update_self]

/-- No table is left below the stored entry. -/
theorem Forest.not_below_leaf (hF : Forest L mem roots) (hr : r ∈ roots)
    (hx : x < L.space) (ht : TableOn L mem r x k t)
    (hv : k = 0 ∨ L.child v = none) (hy : y < L.space) (hjk : j < k)
    (hyx : y / L.blk k = x / L.blk k) :
    ¬ TableOn L (Function.update mem (L.slot k t x) v) r y j u := by
  intro hu
  obtain ⟨w, hw, hnext⟩ := hu.above hjk.le ht.le_top
  obtain ⟨c, hc⟩ := hnext hjk
  have hwt : w = t := by
    rw [hF.tableOn_store hr hx ht hr hy fun h => lt_irrefl _ h.2.1] at hw
    exact hw.unique (ht.congr_key (L.div_blk_eq (Nat.le_succ k) hyx.symm))
  rw [hwt, L.slot_eq hyx, Function.update_self] at hc
  rcases hv with hzero | hnone
  · omega
  · rw [hnone] at hc
    cases hc

/-- After storing a leaf, the tables are among those from before. -/
theorem Forest.tableOn_of_leaf (hF : Forest L mem roots) (hr : r ∈ roots)
    (hx : x < L.space) (ht : TableOn L mem r x k t)
    (hv : k = 0 ∨ L.child v = none) (hr' : r' ∈ roots) (hy : y < L.space)
    (hu : TableOn L (Function.update mem (L.slot k t x) v) r' y j u) :
    TableOn L mem r' y j u := by
  by_cases hbelow : r' = r ∧ j < k ∧ y / L.blk k = x / L.blk k
  · obtain ⟨rfl, hjk, hyx⟩ := hbelow
    exact absurd hu (hF.not_below_leaf hr hx ht hv hy hjk hyx)
  · exact (hF.tableOn_store hr hx ht hr' hy hbelow).mp hu

theorem Forest.store_leaf (hF : Forest L mem roots) (hr : r ∈ roots)
    (hx : x < L.space) (ht : TableOn L mem r x k t)
    (hv : k = 0 ∨ L.child v = none) :
    Forest L (Function.update mem (L.slot k t x) v) roots := by
  constructor
  · rintro u ⟨r', hr', y, j, hy, hu⟩
    exact hF.aligned u
      ⟨r', hr', y, j, hy, hF.tableOn_of_leaf hr hx ht hv hr' hy hu⟩
  · intro r₁ hr₁ r₂ hr₂ x₁ x₂ k₁ k₂ u hx₁ hx₂ hu₁ hu₂
    exact hF.disjoint r₁ hr₁ r₂ hr₂ x₁ x₂ k₁ k₂ u hx₁ hx₂
      (hF.tableOn_of_leaf hr hx ht hv hr₁ hx₁ hu₁)
      (hF.tableOn_of_leaf hr hx ht hv hr₂ hx₂ hu₂)

theorem Forest.allLinks_leaf (hF : Forest L mem roots) (hr : r ∈ roots)
    (hx : x < L.space) (ht : TableOn L mem r x k t)
    (hv : k = 0 ∨ L.child v = none) {P : ℕ → Prop}
    (hP : AllLinks L mem roots P) :
    AllLinks L (Function.update mem (L.slot k t x) v) roots P := by
  intro r' hr' y j u c hy hu hchild
  have hu' := hF.tableOn_of_leaf hr hx ht hv hr' hy hu
  by_cases hslot : L.slot (j + 1) u y = L.slot k t x
  · obtain ⟨-, rfl, -⟩ := hF.slot_hit hr hx ht hr' hy hu' hslot
    rw [hslot, Function.update_self] at hchild
    rcases hv with hzero | hnone
    · omega
    · rw [hnone] at hchild
      cases hchild
  · rw [Function.update_of_ne hslot] at hchild ⊢
    exact hP r' hr' y j u c hy hu' hchild

end Store

/-! ## A link to an empty table -/

/-- `t` can be linked in: it is aligned, not in use and holds only zeros, and
a zero entry stops a lookup. -/
structure FreshTable (L : Layout) (mem : ℕ → ℕ) (roots : Set ℕ) (t : ℕ) :
    Prop where
  aligned : 8 * L.fan ∣ t
  unused : ¬ IsTable L mem roots t
  zeroed : ∀ i, i < L.fan → mem (t + 8 * i) = 0
  stops : L.child 0 = none

section Link

variable {L : Layout} {roots : Set ℕ} {mem : ℕ → ℕ} {r x k t v t' : ℕ}
  {r' y j u e : ℕ}

theorem Forest.tableOn_link (hF : Forest L mem roots) (hr : r ∈ roots)
    (hx : x < L.space) (ht : TableOn L mem r x (k + 1) t)
    (hv : L.child v = some t') (hy : y < L.space)
    (hyx : y / L.blk (k + 1) = x / L.blk (k + 1)) :
    TableOn L (Function.update mem (L.slot (k + 1) t x) v) r y k t' := by
  have htop : TableOn L (Function.update mem (L.slot (k + 1) t x) v) r y
      (k + 1) t := by
    rw [hF.tableOn_store hr hx ht hr hy fun h => lt_irrefl _ h.2.1]
    exact ht.congr_key (L.div_blk_eq (Nat.le_succ _) hyx.symm)
  refine htop.next ?_
  rw [L.slot_eq hyx, Function.update_self, hv]

/-- The words of the new table are still zero after it has been linked in. -/
theorem Forest.slot_link (hF : Forest L mem roots) (hr : r ∈ roots)
    (hx : x < L.space) (ht : TableOn L mem r x (k + 1) t)
    (hfresh : FreshTable L mem roots t') (y : ℕ) :
    Function.update mem (L.slot (k + 1) t x) v (L.slot k t' y) = 0 := by
  have htable : IsTable L mem roots t := ⟨r, hr, x, k + 1, hx, ht⟩
  rw [Function.update_of_ne]
  · exact hfresh.zeroed _ (L.idx_lt k y)
  · intro hslot
    obtain ⟨rfl, -⟩ := L.slot_injective hfresh.aligned
      (hF.aligned t htable) hslot
    exact hfresh.unused htable

/-- The new table is the only one below the link. -/
theorem Forest.below_link (hF : Forest L mem roots) (hr : r ∈ roots)
    (hx : x < L.space) (ht : TableOn L mem r x (k + 1) t)
    (hv : L.child v = some t') (hfresh : FreshTable L mem roots t')
    (hy : y < L.space) (hjk : j < k + 1)
    (hyx : y / L.blk (k + 1) = x / L.blk (k + 1))
    (hu : TableOn L (Function.update mem (L.slot (k + 1) t x) v) r y j u) :
    j = k ∧ u = t' := by
  have hlink := hF.tableOn_link hr hx ht hv hy hyx
  obtain ⟨w, hw, hnext⟩ := hu.above (Nat.le_of_lt_succ hjk) hlink.le_top
  obtain rfl := hw.unique hlink
  by_cases hlt : j < k
  · obtain ⟨c, hc⟩ := hnext hlt
    rw [hF.slot_link hr hx ht hfresh, hfresh.stops] at hc
    cases hc
  · obtain rfl : j = k := by omega
    exact ⟨rfl, hu.unique hlink⟩

theorem Forest.stops_link (hF : Forest L mem roots) (hr : r ∈ roots)
    (hx : x < L.space) (ht : TableOn L mem r x (k + 1) t)
    (hv : L.child v = some t') (hfresh : FreshTable L mem roots t')
    (hy : y < L.space) (hyx : y / L.blk (k + 1) = x / L.blk (k + 1)) :
    Stops L (Function.update mem (L.slot (k + 1) t x) v) r y k 0 :=
  ⟨t', hF.tableOn_link hr hx ht hv hy hyx,
    hF.slot_link hr hx ht hfresh y, Or.inr hfresh.stops⟩

/-- After linking in a table, every table but this one is from before. -/
theorem Forest.tableOn_of_link (hF : Forest L mem roots) (hr : r ∈ roots)
    (hx : x < L.space) (ht : TableOn L mem r x (k + 1) t)
    (hv : L.child v = some t') (hfresh : FreshTable L mem roots t')
    (hr' : r' ∈ roots) (hy : y < L.space)
    (hu : TableOn L (Function.update mem (L.slot (k + 1) t x) v) r' y j u) :
    TableOn L mem r' y j u ∨
      (r' = r ∧ j = k ∧ u = t' ∧
        y / L.blk (k + 1) = x / L.blk (k + 1)) := by
  by_cases hbelow : r' = r ∧ j < k + 1 ∧
      y / L.blk (k + 1) = x / L.blk (k + 1)
  · obtain ⟨rfl, hjk, hyx⟩ := hbelow
    obtain ⟨hj, hut⟩ := hF.below_link hr hx ht hv hfresh hy hjk hyx hu
    exact Or.inr ⟨rfl, hj, hut, hyx⟩
  · exact Or.inl ((hF.tableOn_store hr hx ht hr' hy hbelow).mp hu)

/-- If the entry was no link before, every table from before is kept. -/
theorem Forest.tableOn_link_of (hF : Forest L mem roots) (hr : r ∈ roots)
    (hx : x < L.space) (ht : TableOn L mem r x (k + 1) t)
    (hold : L.child (mem (L.slot (k + 1) t x)) = none)
    (hr' : r' ∈ roots) (hy : y < L.space) (hu : TableOn L mem r' y j u) :
    TableOn L (Function.update mem (L.slot (k + 1) t x) v) r' y j u := by
  refine (hF.tableOn_store hr hx ht hr' hy ?_).mpr hu
  rintro ⟨rfl, hjk, hyx⟩
  obtain ⟨w, hw, hnext⟩ := hu.above hjk.le ht.le_top
  obtain ⟨c, hc⟩ := hnext hjk
  rw [hw.unique (ht.congr_key (L.div_blk_eq (Nat.le_succ _) hyx.symm)),
    L.slot_eq hyx, hold] at hc
  cases hc

theorem Forest.link (hF : Forest L mem roots) (hr : r ∈ roots)
    (hx : x < L.space) (ht : TableOn L mem r x (k + 1) t)
    (hv : L.child v = some t') (hfresh : FreshTable L mem roots t') :
    Forest L (Function.update mem (L.slot (k + 1) t x) v) roots := by
  have hsplit := fun {r' y j u : ℕ} (hr' : r' ∈ roots) (hy : y < L.space)
      (hu : TableOn L (Function.update mem (L.slot (k + 1) t x) v) r' y j u) =>
    hF.tableOn_of_link hr hx ht hv hfresh hr' hy hu
  constructor
  · rintro u ⟨r', hr', y, j, hy, hu⟩
    rcases hsplit hr' hy hu with hold | ⟨-, -, rfl, -⟩
    · exact hF.aligned u ⟨r', hr', y, j, hy, hold⟩
    · exact hfresh.aligned
  · intro r₁ hr₁ r₂ hr₂ x₁ x₂ k₁ k₂ u hx₁ hx₂ hu₁ hu₂
    rcases hsplit hr₁ hx₁ hu₁ with hold₁ | ⟨rfl, rfl, rfl, hdiv₁⟩
    · rcases hsplit hr₂ hx₂ hu₂ with hold₂ | ⟨-, -, rfl, -⟩
      · exact hF.disjoint r₁ hr₁ r₂ hr₂ x₁ x₂ k₁ k₂ u hx₁ hx₂ hold₁ hold₂
      · exact absurd ⟨r₁, hr₁, x₁, k₁, hx₁, hold₁⟩ hfresh.unused
    · rcases hsplit hr₂ hx₂ hu₂ with hold₂ | ⟨rfl, rfl, -, hdiv₂⟩
      · exact absurd ⟨r₂, hr₂, x₂, k₂, hx₂, hold₂⟩ hfresh.unused
      · exact ⟨rfl, rfl, hdiv₁.trans hdiv₂.symm⟩

theorem Forest.allLinks_link (hF : Forest L mem roots) (hr : r ∈ roots)
    (hx : x < L.space) (ht : TableOn L mem r x (k + 1) t)
    (hv : L.child v = some t') (hfresh : FreshTable L mem roots t')
    {P : ℕ → Prop} (hP : AllLinks L mem roots P) (hPv : P v) :
    AllLinks L (Function.update mem (L.slot (k + 1) t x) v) roots P := by
  intro r' hr' y j u c hy hu hchild
  rcases hF.tableOn_of_link hr hx ht hv hfresh hr' hy hu with
    hold | ⟨-, hj, rfl, -⟩
  · by_cases hslot : L.slot (j + 1) u y = L.slot (k + 1) t x
    · rw [hslot, Function.update_self]
      exact hPv
    · rw [Function.update_of_ne hslot] at hchild ⊢
      exact hP r' hr' y j u c hy hold hchild
  · rw [hj, hF.slot_link hr hx ht hfresh, hfresh.stops] at hchild
    cases hchild

end Link

end RadixTable
