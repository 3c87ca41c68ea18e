import PongoOS.Dtree.Parser
import Mathlib.Data.Nat.ModEq

/-!
# What `dt_check` accepts

A buffer that `dt_check` accepts holds a tree, and `dt_parse` visits this tree
without leaving the buffer.  Both functions compute offsets in 32 bits, so that
they agree on a buffer of any size.  The value of a property is inside the buffer
as well, unless the buffer is so large that the offset behind it can wrap around.
-/

namespace PongoOS

/-! ## Offsets -/

theorem dtPropLen_lt {b : Buffer} {node off l : ℕ}
    (h : dtPropLen b node off = .ok l) : l < 2 ^ 24 := by
  rw [dtPropLen, Outcome.bind_eq_ok] at h
  obtain ⟨len, -, hl⟩ := h
  rw [← Outcome.pure_eq_ok.mp hl]
  exact Nat.mod_lt _ (by decide)

/-- An offset behind a value which cannot wrap around is not too small. -/
theorem add_le_dtAdvance {size off l : ℕ} (hl : l < 2 ^ 24)
    (hoff : off + dtPropSize ≤ size) (hsize : size < 2 ^ 32 - 2 ^ 24) :
    off + dtPropSize + l ≤ dtAdvance off l := by
  unfold dtAdvance dtPropSize at *
  omega

/-! ## The loops -/

/-- The values of the properties of a node end before `limit`. -/
def DtNode.ValuesBelow (limit : ℕ) (a : DtNode) : Prop :=
  ∀ p ∈ a.props, p.val + p.len ≤ limit

section Loops

variable {b : Buffer} {node size n off off' : ℕ}

theorem dtCheckProps_ok (hoff : off ≤ size)
    (h : dtCheckProps b node size n off = .ok (some off')) :
    off' ≤ size ∧ ∃ ps, ps.length = n ∧ PropsAt b node ps off off' ∧
      (size < 2 ^ 32 - 2 ^ 24 → ∀ p ∈ ps, p.val + p.len ≤ node + size) := by
  induction n generalizing off with
  | zero =>
      obtain rfl : off = off' := by simpa [dtCheckProps] using h
      exact ⟨hoff, [], rfl, rfl, by simp⟩
  | succ n ih =>
      rw [dtCheckProps] at h
      split_ifs at h with hheader
      · cases h
      rw [Outcome.bind_eq_ok] at h
      obtain ⟨l, hl, h⟩ := h
      dsimp only at h
      split_ifs at h with hvalue
      · cases h
      obtain ⟨hend, ps, hlength, hps, hvalues⟩ := ih (by omega) h
      refine ⟨hend, ⟨node + off, l⟩ :: ps, by simp [hlength], ⟨rfl, hl, hps⟩, ?_⟩
      intro hsize p hp
      rcases List.mem_cons.mp hp with rfl | hp
      · have hadvance := add_le_dtAdvance (dtPropLen_lt hl)
          (Nat.le_of_not_lt hheader) hsize
        simp only [DtProp.val]
        omega
      · exact hvalues hsize p hp

/-- What a call of `dt_check` that returns 0 shows. -/
def Checked (b : Buffer) (height node size used : ℕ) : Prop :=
  used ≤ size ∧ ∃ a children, a.addr = node ∧
    children.height ≤ height ∧ TreeAt b a children used ∧
    (size < 2 ^ 32 - 2 ^ 24 → ∀ c ∈ a :: children.labels,
      c.ValuesBelow (node + size))

theorem dtCheckChildren_ok {check : ℕ → ℕ → Outcome (Option ℕ)} {height : ℕ}
    (hcheck : ∀ node size used, size < 2 ^ 32 →
      check node size = .ok (some used) → Checked b height node size used)
    (hsize : size < 2 ^ 32) (hoff : off ≤ size)
    (h : dtCheckChildren check node size n off = .ok (some off')) :
    off' ≤ size ∧ ∃ F : OrderedForest DtNode,
      F.width = n ∧ F.height ≤ height + 1 ∧ ForestAt b F node off off' ∧
      (size < 2 ^ 32 - 2 ^ 24 → ∀ c ∈ F.labels,
        c.ValuesBelow (node + size)) := by
  induction n generalizing off with
  | zero =>
      obtain rfl : off = off' := by simpa [dtCheckChildren] using h
      exact ⟨hoff, .nil, rfl, Nat.zero_le _, rfl, by
        simp [OrderedForest.labels]⟩
  | succ n ih =>
      rw [dtCheckChildren, Outcome.bind_eq_ok] at h
      obtain ⟨r, hr, h⟩ := h
      cases r with
      | none => cases h
      | some used =>
          rw [sub32_of_le hoff hsize] at hr
          obtain ⟨hused, a, children, haddr, hheight, htree, hvalues⟩ :=
            hcheck _ _ _ (by omega) hr
          have hnext : (off + used) % 2 ^ 32 = off + used :=
            Nat.mod_eq_of_lt (by omega)
          obtain ⟨hend, rest, hwidth, hheight', hrest, hvalues'⟩ :=
            ih (by omega) h
          refine ⟨hend, .cons a children rest, ?_, ?_, ?_, ?_⟩
          · rw [OrderedForest.width, hwidth]
          · rw [OrderedForest.height]
            omega
          · exact ⟨haddr, used, htree, hrest⟩
          · intro hsmall c hc
            rw [OrderedForest.labels, ← List.cons_append,
              List.mem_append] at hc
            rcases hc with hc | hc
            · have hbelow := hvalues (by omega) c hc
              rwa [show node + off + (size - off) = node + size by omega]
                at hbelow
            · exact hvalues' hsmall c hc

end Loops

/-- What `dt_check` accepts is a tree, whose height is bounded by how deep the
recursion was. -/
theorem dtCheck_ok {b : Buffer} {fuel node size used : ℕ}
    (hsize : size < 2 ^ 32)
    (h : dtCheck b fuel node size = .ok (some used)) :
    Checked b fuel node size used := by
  induction fuel generalizing node size used with
  | zero => cases h
  | succ fuel ih =>
      rw [dtCheck] at h
      split_ifs at h with hheader
      · cases h
      simp only [Outcome.bind_eq_ok] at h
      obtain ⟨nprop, hnprop, r, hr, h⟩ := h
      cases r with
      | none => cases h
      | some off =>
          simp only [Outcome.bind_eq_ok] at h
          obtain ⟨nchld, hnchld, h⟩ := h
          have hfirst : dtNodeSize ≤ size := Nat.le_of_not_lt hheader
          obtain ⟨hoff, ps, rfl, hps, hvalues⟩ := dtCheckProps_ok hfirst hr
          obtain ⟨hused, F, rfl, hheight, hF, hvalues'⟩ :=
            dtCheckChildren_ok (fun _ _ _ hsize h => ih hsize h) hsize hoff h
          refine ⟨hused, ⟨node, ps⟩, F, rfl, hheight, ?_, ?_⟩
          · exact ⟨hnprop, hnchld, off, hps, hF⟩
          · intro hsmall c hc
            rcases List.mem_cons.mp hc with rfl | hc
            · exact hvalues hsmall
            · exact hvalues' hsmall c hc

/-! ## Callbacks that return 0 -/

/-- A buffer that `dt_check` accepts holds a tree, and `dt_parse` with callbacks
that return 0 visits the tree, reads nothing outside the buffer and ends where
`dt_check` does. -/
theorem dtCheck_sound {mem : ByteMemory} {fuel size off : ℕ}
    (hsize : size < 2 ^ 32)
    (h : dtCheck ⟨mem, size⟩ fuel 0 size = .ok (some off)) :
    off ≤ size ∧ ∃ a children, a.addr = 0 ∧
      TreeAt ⟨mem, size⟩ a children off ∧
      ∀ (σ : Type) (cb : DtCallbacks σ) (upd : DtEvent → σ → σ),
        (∀ e s, cb.call e s = .ok (0, upd e s)) →
        ∀ (depth : ℤ) (s : σ), 0 ≤ depth →
        ∃ bound, ∀ fuel', bound ≤ fuel' →
          dtParse ⟨mem, size⟩ cb fuel' 0 depth s =
            .ok (0, (dtEvents (.cons a children .nil) depth).foldl
              (fun s e => upd e s) s, off) := by
  obtain ⟨hoff, a, children, haddr, hheight, htree, -⟩ := dtCheck_ok hsize h
  refine ⟨hoff, a, children, haddr, htree, ?_⟩
  intro σ cb upd hcb depth s hdepth
  refine ⟨fuel + 1, ?_⟩
  intro fuel' hfuel'
  obtain ⟨fuel', rfl⟩ : ∃ k, fuel' = k + 1 :=
    Nat.exists_eq_add_of_le' (by omega)
  have hevents : dtEvents (.cons a children .nil) depth =
      a.events depth ++ dtEvents children (depth + 1) := by
    rw [dtEvents_cons]
    exact congrArg _ (List.append_nil _)
  rw [← haddr, dtParse_tree hdepth (by omega) htree, visit_of_zero hcb, hevents]
  rfl

/-! A node called `a` with one child, which is called `b`.  The flag in the
length of the second property is set. -/

def sampleProp (flag v : UInt8) : List UInt8 :=
  [110, 97, 109, 101] ++ List.replicate 28 0 ++ [2, 0, 0, flag, v, 0, 0, 0]

def sampleTree : ByteMemory := fun a =>
  ([1, 0, 0, 0, 1, 0, 0, 0] ++ sampleProp 0 97 ++
    ([1, 0, 0, 0, 0, 0, 0, 0] ++ sampleProp 128 98)).getD a 0

theorem dtCheck_sampleTree :
    dtCheck ⟨sampleTree, 96⟩ 3 0 96 = .ok (some 96) := by
  have hresult : (dtCheck ⟨sampleTree, 96⟩ 3 0 96).toOption.map id =
      some (some 96) := by decide +kernel
  obtain ⟨r, hr, rfl⟩ := Outcome.ok_of_map hresult
  exact hr

theorem dtCheck_sound_sampleTree : ∃ a children,
    a.addr = 0 ∧ TreeAt ⟨sampleTree, 96⟩ a children 96 := by
  obtain ⟨-, a, children, haddr, htree, -⟩ :=
    dtCheck_sound (by decide) dtCheck_sampleTree
  exact ⟨a, children, haddr, htree⟩

/-- The values of the properties are inside a buffer that is not too large. -/
theorem dtCheck_values {mem : ByteMemory} {fuel size off : ℕ}
    (hsize : size < 2 ^ 32 - 2 ^ 24)
    (h : dtCheck ⟨mem, size⟩ fuel 0 size = .ok (some off)) :
    ∃ a children, a.addr = 0 ∧ TreeAt ⟨mem, size⟩ a children off ∧
      ∀ c ∈ a :: children.labels, c.ValuesBelow size := by
  obtain ⟨-, a, children, haddr, -, htree, hvalues⟩ :=
    dtCheck_ok (by omega) h
  rw [Nat.zero_add] at hvalues
  exact ⟨a, children, haddr, htree, hvalues hsize⟩

end PongoOS
