import Mathlib.Order.CompletePartialOrder
import Mathlib.Order.Interval.Set.Disjoint
import PongoOS.Support.Outcome

/-!
# Bump allocators

A bump allocator returns its cursor and moves it by what it reserves for the
request.  As long as that is enough for the request, the regions it returns do
not overlap and stay in its window.
-/

namespace PongoOS

namespace Bump

/-- The addresses of a region, given by where it starts and how long it is. -/
def region (r : ℕ × ℕ) : Set ℕ := Set.Ico r.1 (r.1 + r.2)

/-- What the callers rely on: regions in the window that do not overlap. -/
structure Sound (lo hi : ℕ) (regions : List (ℕ × ℕ)) : Prop where
  inside : ∀ r ∈ regions, region r ⊆ Set.Ico lo hi
  apart : regions.Pairwise fun r q => Disjoint (region r) (region q)

theorem Sound.nil (lo hi : ℕ) : Sound lo hi [] :=
  ⟨fun _ hr => absurd hr List.not_mem_nil, List.Pairwise.nil⟩

/-- The regions that are returned one after the other, from one cursor to
another one. -/
inductive Run (reserve : ℕ → ℕ) (hi : ℕ) : ℕ → List (ℕ × ℕ) → ℕ → Prop where
  | nil (cursor : ℕ) : Run reserve hi cursor [] cursor
  | cons {cursor cursor' n : ℕ} {regions : List (ℕ × ℕ)}
      (hroom : cursor + reserve n ≤ hi)
      (hrest : Run reserve hi (cursor + reserve n) regions cursor') :
      Run reserve hi cursor ((cursor, n) :: regions) cursor'

section Run

variable {reserve : ℕ → ℕ} {lo hi cursor cursor' : ℕ}
  {regions : List (ℕ × ℕ)}

theorem Run.within (h : Run reserve hi cursor regions cursor')
    (henough : ∀ r ∈ regions, r.2 ≤ reserve r.2) :
    ∀ r ∈ regions, cursor ≤ r.1 ∧ r.1 + r.2 ≤ hi := by
  induction h with
  | nil => exact fun r hr => absurd hr List.not_mem_nil
  | cons hroom _ ih =>
      intro r hr
      have hfirst := henough _ List.mem_cons_self
      rcases List.mem_cons.mp hr with rfl | hr
      · dsimp only at hfirst ⊢
        omega
      · have hrest := ih (fun q hq => henough q (List.mem_cons_of_mem _ hq)) r hr
        omega

theorem Run.apart (h : Run reserve hi cursor regions cursor')
    (henough : ∀ r ∈ regions, r.2 ≤ reserve r.2) :
    regions.Pairwise fun r q => r.1 + r.2 ≤ q.1 := by
  induction h with
  | nil => exact List.Pairwise.nil
  | cons _ hrest ih =>
      have henough' := fun q hq => henough q (List.mem_cons_of_mem _ hq)
      refine List.pairwise_cons.mpr ⟨fun q hq => ?_, ih henough'⟩
      have hfirst := henough _ List.mem_cons_self
      have hwithin := (hrest.within henough' q hq).1
      dsimp only at hfirst ⊢
      omega

theorem Run.sound (h : Run reserve hi cursor regions cursor') (hlo : lo ≤ cursor)
    (henough : ∀ r ∈ regions, r.2 ≤ reserve r.2) : Sound lo hi regions := by
  constructor
  · intro r hr
    obtain ⟨hstart, hstop⟩ := h.within henough r hr
    exact Set.Ico_subset_Ico (Nat.le_trans hlo hstart) hstop
  · refine (h.apart henough).imp fun {r q} hrq => ?_
    rw [region, region, Set.Ico_disjoint_Ico]
    omega

/-- Where less than the request is reserved only for requests larger than the
window, the regions are sound exactly if that does not happen. -/
theorem Run.sound_iff (h : Run reserve hi cursor regions cursor')
    (hlo : lo ≤ cursor) (hlarge : ∀ n, reserve n < n → hi < lo + n) :
    Sound lo hi regions ↔ ∀ r ∈ regions, r.2 ≤ reserve r.2 := by
  refine ⟨fun hsound r hr => ?_, h.sound hlo⟩
  by_contra hshort
  have hsize := hlarge r.2 (Nat.lt_of_not_le hshort)
  have hin := hsound.inside r hr
  have hfirst : r.1 ∈ Set.Ico lo hi :=
    hin ⟨le_rfl, Nat.lt_add_of_pos_right (by omega)⟩
  have hlast : r.1 + r.2 - 1 ∈ Set.Ico lo hi := hin ⟨by omega, by omega⟩
  have hge := hfirst.1
  have hlt := hlast.2
  omega

end Run

/-! ## Calls -/

/-- Calls of an allocator for the sizes, with the regions it returns. -/
def allocAll {σ : Type} (alloc : ℕ → σ → Outcome (ℕ × σ)) :
    List ℕ → σ → Outcome (List (ℕ × ℕ) × σ)
  | [], s => pure ([], s)
  | n :: sizes, s => do
      let (base, s) ← alloc n s
      let (regions, s) ← allocAll alloc sizes s
      pure ((base, n) :: regions, s)

section Calls

variable {σ : Type} {alloc : ℕ → σ → Outcome (ℕ × σ)} {I : σ → Prop}
  {c : σ → ℕ} {reserve : ℕ → ℕ} {hi n : ℕ} {sizes : List ℕ} {s s' : σ}
  {regions : List (ℕ × ℕ)}

theorem allocAll_cons_ok : allocAll alloc (n :: sizes) s = .ok (regions, s') ↔
    ∃ base s₁ rest, alloc n s = .ok (base, s₁) ∧
      allocAll alloc sizes s₁ = .ok (rest, s') ∧ regions = (base, n) :: rest := by
  simp only [allocAll, Outcome.bind_eq_ok, Outcome.pure_eq_ok, Prod.exists,
    Prod.mk.injEq]
  constructor
  · rintro ⟨base, s₁, hfirst, rest, s₂, hrest, rfl, rfl⟩
    exact ⟨base, s₁, rest, hfirst, hrest, rfl⟩
  · rintro ⟨base, s₁, rest, hfirst, hrest, rfl⟩
    exact ⟨base, s₁, hfirst, rest, s', hrest, rfl, rfl⟩

theorem allocAll_preserves
    (hstep : ∀ s n base s', I s → alloc n s = .ok (base, s') → I s')
    (hs : I s) (h : allocAll alloc sizes s = .ok (regions, s')) : I s' := by
  induction sizes generalizing s regions with
  | nil =>
      cases h
      exact hs
  | cons n sizes ih =>
      obtain ⟨base, s₁, rest, hfirst, hrest, rfl⟩ := allocAll_cons_ok.mp h
      exact ih (hstep s n base s₁ hs hfirst) hrest

/-- The sizes of the regions are those that were asked for. -/
theorem map_snd_of_allocAll (h : allocAll alloc sizes s = .ok (regions, s')) :
    regions.map Prod.snd = sizes := by
  induction sizes generalizing s regions with
  | nil =>
      cases h
      rfl
  | cons n sizes ih =>
      obtain ⟨base, s₁, rest, -, hrest, rfl⟩ := allocAll_cons_ok.mp h
      rw [List.map_cons, ih hrest]

/-- The rule for an allocator whose calls move its cursor. -/
theorem run_of_allocAll
    (hstep : ∀ s n base s', I s → alloc n s = .ok (base, s') →
      I s' ∧ base = c s ∧ c s' = c s + reserve n ∧
        c s' ≤ hi)
    (hs : I s) (h : allocAll alloc sizes s = .ok (regions, s')) :
    Run reserve hi (c s) regions (c s') := by
  induction sizes generalizing s regions with
  | nil =>
      cases h
      exact .nil _
  | cons n sizes ih =>
      obtain ⟨base, s₁, rest, hfirst, hrest, rfl⟩ := allocAll_cons_ok.mp h
      obtain ⟨hs₁, rfl, hmoved, hroom⟩ := hstep s n base s₁ hs hfirst
      have hrun := ih hs₁ hrest
      rw [hmoved] at hrun hroom
      exact .cons hroom hrun

/-- The calls are sound exactly if enough is reserved for every size. -/
theorem sound_allocAll_iff {lo : ℕ}
    (hrun : Run reserve hi (c s) regions (c s'))
    (h : allocAll alloc sizes s = .ok (regions, s')) (hlo : lo ≤ c s)
    (hlarge : ∀ n, reserve n < n → hi < lo + n) :
    Sound lo hi regions ↔ ∀ n ∈ sizes, n ≤ reserve n := by
  rw [hrun.sound_iff hlo hlarge, ← map_snd_of_allocAll h, List.forall_mem_map]

end Calls

end Bump

end PongoOS
