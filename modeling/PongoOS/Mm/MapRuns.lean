import PongoOS.Mm.MapExtension
import PongoOS.Support.Overlay

/-!
# Sequences of `map_range_map` calls

Each call lays a piece over the translation.  A block of the table never reaches
beyond the piece it was made for, so a call that does not cut through an earlier
piece cuts no block, and after any sequence of such calls an address has the
translation of the last call that covers it.
-/

namespace PongoOS

open RadixTable Mm

/-- A call of `map_range_map`. -/
structure RangeCall where
  args : MapArgs
  va : ℕ
  pa : ℕ
  size : ℕ

namespace RangeCall

/-- The call, with tables from `ttb_alloc_early`. -/
def run (g : Granule) (s : Mm) (r : RangeCall) : Outcome Mm :=
  mapRangeMap (ttbAllocEarly g) g r.args r.va r.pa r.size s

def runs (g : Granule) (rs : List RangeCall) (s : Mm) : Outcome Mm :=
  rs.foldlM (run g) s

/-- What the call asks for. -/
def piece (r : RangeCall) : Piece (Option Translation) where
  start := r.va
  stop := r.va + r.size
  value := fun x => some (requested r.args (r.pa + (x - r.va)))

/-- The call maps readable memory below the root of TTBR0. -/
structure Plain (g : Granule) (root : ℕ) (r : RangeCall) : Prop where
  root : r.args.tt0 = root
  tt0 : r.args.isTt1 = false
  read : r.args.prot.read = true
  noInfo : r.args.prot.pagingInfo = false
  fits : r.va + r.size ≤ g.space
  pa_ne_zero : r.pa ≠ 0
  pa_fits : r.pa + r.size ≤ 2 ^ 48

/-- The range of the call does not cut through the piece. -/
def Spares (r : RangeCall) (p : Piece (Option Translation)) : Prop :=
  p.stop ≤ r.va ∨ r.va + r.size ≤ p.start ∨
    r.va ≤ p.start ∧ p.stop ≤ r.va + r.size

end RangeCall

namespace Mm

/-- The translation below `root` is that of the pieces, every block lies in one
of them, and nothing is mapped below the other roots. -/
structure Mapped (g : Granule) (roots : Set ℕ) (root : ℕ)
    (ps : List (Piece (Option Translation))) (s : Mm) : Prop where
  mem_roots : root ∈ roots
  good : Good g roots (EarlyInv g roots) s
  view : ∀ x, x < g.space →
    translate g s.mem root x = Piece.layAll (fun _ => none) ps x
  tiled : ∀ x k e, x < g.space → look g.layout s.mem root x = (k, e) →
    IsLeaf k e → ∃ p ∈ ps, p.start ≤ blockBase g k x ∧
      blockBase g k x + g.layout.blk k ≤ p.stop
  others : ∀ r ∈ roots, r ≠ root → ∀ x, x < g.space →
    translate g s.mem r x = none

section Run

variable {g : Granule} {roots : Set ℕ} {root : ℕ}
  {ps : List (Piece (Option Translation))} {r : RangeCall} {s s' : Mm}

theorem Mapped.noBlockCut (h : Mapped g roots root ps s)
    (hspares : ∀ p ∈ ps, r.Spares p) : NoBlockCut g root r.va r.size s := by
  intro x k e hx hlook hleaf hmeet
  obtain ⟨p, hp, hstart, hstop⟩ := h.tiled x k e hx hlook hleaf
  obtain ⟨hlow, hhigh⟩ := hmeet
  rcases hspares p hp with hbefore | hbehind | ⟨hfirst, hlast⟩
  · omega
  · omega
  · exact ⟨by omega, by omega⟩

theorem Mapped.call (h : Mapped g roots root ps s) (hr : r.Plain g root)
    (hspares : r.args.overwrite = true → ∀ p ∈ ps, r.Spares p)
    (hok : r.run g s = .ok s') (hroom : s'.ttbAllocBase ≤ 2 ^ 48) :
    Mapped g roots root (ps ++ [r.piece]) s' := by
  obtain ⟨rfl, htt0, hread, hpi, hfits, hpa, hlt⟩ := hr
  have hrun := mapRangeMap_room htt0 (by omega) h.good.inv.below hok hroom
  obtain ⟨hmaps, hgood', hextends⟩ :=
    mapRangeMap_effect h.mem_roots htt0 hfits h.good hrun
  have hcut : NoBlockCut g r.args.tt0 r.va r.size s := by
    by_cases hover : r.args.overwrite = true
    · exact h.noBlockCut (hspares hover)
    · exact (hextends (Bool.not_eq_true _ ▸ hover)).2
  have hframe := (hmaps.frame_iff h.mem_roots).mpr hcut
  refine ⟨h.mem_roots, hgood', ?_, ?_, ?_⟩
  · intro x hx
    rw [Piece.layAll_append, Piece.layAll_cons, Piece.layAll_nil]
    by_cases hcovers : r.piece.Covers x
    · obtain ⟨hlow, hhigh⟩ := hcovers
      rw [Piece.lay_of_covers ⟨hlow, hhigh⟩]
      obtain ⟨k, rfl⟩ := Nat.exists_eq_add_of_le hlow
      have hk : k < r.size := Nat.lt_of_add_lt_add_left hhigh
      have hmapped := hmaps.translate_inside h.mem_roots hgood' hpa hlt hread hpi hk
      show translate g s'.mem r.args.tt0 (r.va + k) =
        some (requested r.args (r.pa + (r.va + k - r.va)))
      rw [Nat.add_sub_cancel_left]
      exact hmapped
    · rw [Piece.lay_of_not_covers hcovers, ← h.view x hx]
      exact hframe _ h.mem_roots x hx fun hin => hcovers hin.2
  · intro x k e hx hlook hleaf
    by_cases hcovers : r.va ≤ x ∧ x < r.va + r.size
    · obtain ⟨j, hj, hstart, hstop, -⟩ := hmaps.inside x hcovers.1 hcovers.2
      rw [hlook] at hj
      obtain ⟨rfl, -⟩ := Prod.mk.inj hj
      exact ⟨r.piece, List.mem_append_right _ (List.mem_singleton.mpr rfl),
        hstart, hstop⟩
    · by_cases hmeet : Meets g r.args.tt0 s x r.va r.size
      · obtain ⟨j, hj⟩ := hmaps.partly x hx (by omega) hmeet
        rw [hlook] at hj
        obtain ⟨rfl, rfl⟩ := Prod.mk.inj hj
        exact absurd hleaf (not_isLeaf_zero k)
      · have hsame := hmaps.outside _ h.mem_roots x hx fun hboth => hmeet hboth.2
        rw [hsame.1] at hlook
        obtain ⟨p, hp, hin⟩ := h.tiled x k e hx hlook hleaf
        exact ⟨p, List.mem_append_left _ hp, hin⟩
  · intro r' hr' hne x hx
    rw [hframe r' hr' x hx fun hin => hne hin.1]
    exact h.others r' hr' hne x hx

/-- After any sequence of calls that return, with room for their tables, of which
those that may overwrite cut through no earlier piece, the translation is that of
the pieces laid one over the other. -/
theorem mapRanges_translates {rs : List RangeCall} (h : Mapped g roots root ps s)
    (hplain : ∀ r ∈ rs, r.Plain g root)
    (hspares : ∀ r ∈ rs, r.args.overwrite = true → ∀ p ∈ ps, r.Spares p)
    (hlater : rs.Pairwise fun r₁ r₂ => r₂.args.overwrite = true →
      r₂.Spares r₁.piece)
    (hok : RangeCall.runs g rs s = .ok s')
    (hroom : ∀ done, done <+: rs → ∀ t, RangeCall.runs g done s = .ok t →
      t.ttbAllocBase ≤ 2 ^ 48) :
    (∀ x, x < g.space → translate g s'.mem root x =
      Piece.layAll (fun _ => none) (ps ++ rs.map RangeCall.piece) x) ∧
    ∀ r ∈ roots, r ≠ root → ∀ x, x < g.space → translate g s'.mem r x = none := by
  induction rs generalizing ps s with
  | nil =>
      cases hok
      rw [List.map_nil, List.append_nil]
      exact ⟨h.view, h.others⟩
  | cons r rs ih =>
      obtain ⟨hfirst, hrest⟩ := List.pairwise_cons.mp hlater
      rw [RangeCall.runs, List.foldlM_cons] at hok
      obtain ⟨s₁, hcall, hok⟩ := Outcome.bind_eq_ok.mp hok
      have hfirst_room : s₁.ttbAllocBase ≤ 2 ^ 48 :=
        hroom [r] (List.cons_prefix_cons.mpr ⟨rfl, List.nil_prefix⟩) s₁
          (Outcome.bind_eq_ok.mpr ⟨s₁, hcall, rfl⟩)
      have hmapped := h.call (hplain r List.mem_cons_self)
        (hspares r List.mem_cons_self) hcall hfirst_room
      have hresult := ih hmapped
        (fun q hq => hplain q (List.mem_cons_of_mem r hq))
        (fun q hq hover p hp => ?_) hrest hok fun done hdone t ht =>
          hroom (r :: done) (List.cons_prefix_cons.mpr ⟨rfl, hdone⟩) t
            (Outcome.bind_eq_ok.mpr ⟨s₁, hcall, ht⟩)
      · rw [List.append_assoc] at hresult
        exact hresult
      · rcases List.mem_append.mp hp with hp | hp
        · exact hspares q (List.mem_cons_of_mem r hq) hover p hp
        · rw [List.mem_singleton.mp hp]
          exact hfirst q hq hover

/-- Roots without links form a forest of their own. -/
theorem mapped_of_empty (hroot : root ∈ roots)
    (hempty : ∀ r ∈ roots, ∀ x, s.mem (g.layout.slot g.topLevel r x) = 0)
    (haligned : ∀ r ∈ roots, g.pgsz ∣ r) (hbase : g.pgsz ∣ s.ttbAllocBase)
    (hbelow : s.ttbAllocBase ≤ 2 ^ 48)
    (habove : ∀ r ∈ roots, s.ttbAllocBase ≤ r) :
    Mapped g roots root [] s := by
  have honly : ∀ r ∈ roots, ∀ {x k t}, TableOn g.layout s.mem r x k t →
      k = g.topLevel ∧ t = r := by
    intro r hr x k t ht
    induction ht with
    | root => exact ⟨rfl, rfl⟩
    | next _ hchild ih =>
        rw [ih.1, ih.2, hempty r hr, g.child_zero] at hchild
        cases hchild
  have hlook : ∀ r ∈ roots, ∀ x, look g.layout s.mem r x = (g.topLevel, 0) := by
    intro r hr x
    exact stops_iff.mp ⟨r, TableOn.root, hempty r hr x, Or.inr g.child_zero⟩
  have hnone : ∀ r ∈ roots, ∀ x, translate g s.mem r x = none := by
    intro r hr x
    exact translate_eq_none (hlook r hr x) (not_isLeaf_zero _)
  refine ⟨hroot, ⟨⟨?_, ?_⟩, ?_, hbase, hbelow, ?_⟩, ?_, ?_, ?_⟩
  · rintro t ⟨r, hr, x, k, -, ht⟩
    rw [(honly r hr ht).2, g.table_size]
    exact haligned r hr
  · intro r hr r' hr' x x' k k' t hx hx' ht ht'
    obtain ⟨rfl, rfl⟩ := honly r hr ht
    obtain ⟨rfl, rfl⟩ := honly r' hr' ht'
    refine ⟨rfl, rfl, ?_⟩
    exact (Nat.div_eq_of_lt hx).trans (Nat.div_eq_of_lt hx').symm
  · rintro r hr x k t u - ht hchild
    obtain ⟨hk, rfl⟩ := honly r hr ht
    rw [hk, hempty t hr, g.child_zero] at hchild
    cases hchild
  · rintro t ⟨r, hr, x, k, -, ht⟩
    rw [(honly r hr ht).2]
    exact habove r hr
  · intro x _
    exact hnone root hroot x
  · intro x k e _ hstop hleaf
    rw [hlook root hroot] at hstop
    obtain ⟨-, rfl⟩ := Prod.mk.inj hstop
    exact absurd hleaf (not_isLeaf_zero k)
  · intro r hr _ x _
    exact hnone r hr x

end Run

/-! ### On the boot machine -/

theorem mapped_bootExample :
    Mapped .kb16 {0x817ff8000} 0x817ff8000 [] bootExample := by
  refine mapped_of_empty rfl (fun _ _ _ => rfl) ?_ (by decide) (by decide) ?_
  · rintro r rfl
    decide
  · rintro r rfl
    decide

/-- Two pages of RAM, and then four over them. -/
def coveringCalls : List RangeCall :=
  [⟨rwOnceArgs, 0x4000, 0x818000000, 0x8000⟩,
    ⟨rwArgs, 0x4000, 0x819000000, 0x10000⟩]

theorem mapRanges_translates_bootExample :
    ∃ s', RangeCall.runs .kb16 coveringCalls bootExample = .ok s' ∧
      (∀ x, x < Granule.kb16.space → translate .kb16 s'.mem 0x817ff8000 x =
        Piece.layAll (fun _ => none) ([] ++ coveringCalls.map RangeCall.piece) x) ∧
      ∀ r ∈ ({0x817ff8000} : Set ℕ), r ≠ 0x817ff8000 →
        ∀ x, x < Granule.kb16.space → translate .kb16 s'.mem r x = none := by
  have hrun : (RangeCall.runs .kb16 coveringCalls bootExample).toOption.map
      (fun _ => ()) = some () := by
    decide +kernel
  obtain ⟨s', hok, -⟩ := Outcome.ok_of_map hrun
  refine ⟨s', hok, mapRanges_translates mapped_bootExample ?_ ?_ ?_ hok ?_⟩
  · intro r hr
    simp only [coveringCalls, List.mem_cons, List.not_mem_nil, or_false] at hr
    rcases hr with rfl | rfl
    · exact ⟨rfl, rfl, rfl, rfl, by decide, by decide, by decide⟩
    · exact ⟨rfl, rfl, rfl, rfl, by decide, by decide, by decide⟩
  · intro r _ _ p hp
    cases hp
  · apply List.pairwise_pair.mpr
    intro _
    exact Or.inr (Or.inr ⟨by decide, by decide⟩)
  · intro done hdone t ht
    have hbases : ∀ n ≤ 2, ((RangeCall.runs .kb16 (coveringCalls.take n)
        bootExample).toOption.map ttbAllocBase).all (· ≤ 2 ^ 48) = true := by
      decide +kernel
    have hbase := hbases done.length hdone.length_le
    rw [← List.prefix_iff_eq_take.mp hdone, ht] at hbase
    exact of_decide_eq_true hbase

end Mm

end PongoOS
