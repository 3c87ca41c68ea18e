import PongoOS.Fdt.Walk

/-!
# Lookups in the flattened device tree

`fdtree_find_prop` copies the value of a property.  It is a callback on
`parse_fdt_node` which stops the walk at the first property that fits.
-/

namespace PongoOS

/-- `find_fdtree_prop_cb`, whose state is what `buf` holds. -/
def findFdtreePropCb (m : ByteMemory) (nodePrefix propName : CString)
    (buflen : ℕ) : FdtCallbacks (List UInt8) where
  cbNode := none
  cbProp nodeName _ name val len buf :=
    if m.startsWith nodePrefix.bytes nodeName = true ∧
        m.strEq propName.bytes name = true ∧ len = buflen then
      pure (2, m.bytesAt val len)
    else pure (0, buf)

/-- `fdtree_find_prop`, with the addresses of the two blocks: what is returned
and what `buf` holds then. -/
def fdtreeFindProp (m : ByteMemory) (fuel base strings : ℕ)
    (nodePrefix propName : CString) (buflen : ℕ) (buf : List UInt8) :
    Outcome (Bool × List UInt8) := do
  let (res, buf, _) ← parseFdtNode m strings
    (findFdtreePropCb m nodePrefix propName buflen) fuel base 0 buf
  pure (res == 2, buf)

/-! ## What is looked for -/

/-- The properties in preorder, each with its node. -/
def fdtProps (ns : List FdtNode) : List (FdtNode × FdtProp) :=
  ns.flatMap fun n => n.props.map fun p => (n, p)

/-- A property that fits. -/
def FdtFits (nodePrefix propName : CString) (buflen : ℕ)
    (x : FdtNode × FdtProp) : Prop :=
  nodePrefix.bytes <+: x.1.name.bytes ∧ x.2.name = propName ∧
    x.2.value.length = buflen

instance (nodePrefix propName : CString) (buflen : ℕ)
    (x : FdtNode × FdtProp) : Decidable (FdtFits nodePrefix propName buflen x) :=
  inferInstanceAs (Decidable (_ ∧ _ ∧ _))

section Lookup

variable {m : ByteMemory} {base strings ptr ptr' buflen : ℕ} {depth : ℤ}
  {nodePrefix propName : CString} {buf : List UInt8}

/-- The names and the values of a node are where the node says. -/
def FdtNode.Readable (m : ByteMemory) (strings : ℕ) (n : FdtNode) : Prop :=
  m.Holds n.nameAddr (n.name.bytes ++ [0]) ∧
    ∀ p ∈ n.props, m.Holds p.val p.value ∧
      m.Holds (strings + p.nameoff) (p.name.bytes ++ [0])

theorem FdtPropsAt.readable {ps : List FdtProp}
    (h : FdtPropsAt m base strings ps ptr ptr') :
    ∀ p ∈ ps, m.Holds p.val p.value ∧
      m.Holds (strings + p.nameoff) (p.name.bytes ++ [0]) := by
  induction ps generalizing ptr with
  | nil =>
      intro p hp
      cases hp
  | cons p ps ih =>
      obtain ⟨q, -, -, -, -, hvalue, hname, hps⟩ := h
      intro p' hp'
      rcases List.mem_cons.mp hp' with rfl | hp'
      · exact ⟨hvalue, hname⟩
      · exact ih hps p' hp'

theorem FdtForestAt.readable {F : OrderedForest FdtNode}
    (h : FdtForestAt m base strings F ptr ptr') :
    ∀ n ∈ F.labels, n.Readable m strings := by
  induction F generalizing ptr ptr' with
  | nil =>
      intro n hn
      cases hn
  | cons n children rest ihc ihr =>
      obtain ⟨-, q, ⟨hname, q₁, q₂, hprops, hchildren, -⟩, hrest⟩ := h
      intro n' hn'
      rw [OrderedForest.labels, List.mem_cons, List.mem_append] at hn'
      rcases hn' with rfl | hn' | hn'
      · exact ⟨hname, hprops.readable⟩
      · exact ihc hchildren n' hn'
      · exact ihr hrest n' hn'

/-- What the callback stops at. -/
def fdtHit (m : ByteMemory) (nodePrefix propName : CString) (buflen : ℕ) :
    FdtEvent → Option (List UInt8)
  | .node _ _ => none
  | .prop nodeName _ name val len =>
      if m.startsWith nodePrefix.bytes nodeName = true ∧
          m.strEq propName.bytes name = true ∧ len = buflen then
        some (m.bytesAt val len)
      else none

theorem findFdtreePropCb_call (e : FdtEvent) :
    (findFdtreePropCb m nodePrefix propName buflen).call e buf =
      .ok (stopped 2 id buf (fdtHit m nodePrefix propName buflen e)) := by
  cases e with
  | node nodeName depth => rfl
  | prop nodeName depth name val len =>
      simp only [FdtCallbacks.call, findFdtreePropCb, fdtHit]
      split_ifs
      · rfl
      · rfl

/-- On a readable node the comparisons decide what fits. -/
theorem fdtHit_prop {n : FdtNode} {p : FdtProp} (hn : n.Readable m strings)
    (hp : p ∈ n.props) :
    fdtHit m nodePrefix propName buflen
        (.prop n.nameAddr depth (strings + p.nameoff) p.val p.value.length) =
      if FdtFits nodePrefix propName buflen (n, p) then some p.value
      else none := by
  obtain ⟨hvalue, hname⟩ := hn.2 p hp
  have hprefix : m.startsWith nodePrefix.bytes n.nameAddr = true ↔
      nodePrefix.bytes <+: n.name.bytes := by
    rw [ByteMemory.startsWith_iff]
    exact hn.1.prefix_iff nodePrefix.nonzero
  have hstring : m.strEq propName.bytes (strings + p.nameoff) = true ↔
      p.name = propName := by
    rw [ByteMemory.strEq_iff]
    constructor
    · exact fun h => hname.string_unique h
    · rintro rfl
      exact hname
  have hiff : (m.startsWith nodePrefix.bytes n.nameAddr = true ∧
      m.strEq propName.bytes (strings + p.nameoff) = true ∧
        p.value.length = buflen) ↔ FdtFits nodePrefix propName buflen (n, p) :=
    and_congr hprefix (and_congr hstring Iff.rfl)
  by_cases hfits : FdtFits nodePrefix propName buflen (n, p)
  · rw [if_pos hfits]
    exact (if_pos (hiff.mpr hfits)).trans (congrArg some hvalue)
  · rw [if_neg hfits]
    exact if_neg fun h => hfits (hiff.mp h)

theorem findSome_fdtNode {n : FdtNode} (hn : n.Readable m strings) :
    (n.events strings depth).findSome?
        (fdtHit m nodePrefix propName buflen) =
      ((n.props.map fun p => (n, p)).find? fun x =>
        FdtFits nodePrefix propName buflen x).map fun x => x.2.value := by
  have hnode : (if depth ≠ 0 then [FdtEvent.node n.nameAddr depth] else
      []).findSome? (fdtHit m nodePrefix propName buflen) = none := by
    split_ifs
    · rfl
    · rfl
  have hprops : ∀ ps, ps ⊆ n.props →
      (ps.map fun p => (FdtEvent.prop n.nameAddr depth (strings + p.nameoff)
        p.val p.value.length)).findSome?
          (fdtHit m nodePrefix propName buflen) =
        ((ps.map fun p => (n, p)).find? fun x =>
          FdtFits nodePrefix propName buflen x).map fun x => x.2.value := by
    intro ps hps
    induction ps with
    | nil => rfl
    | cons p ps ih =>
        rw [List.map_cons, List.findSome?_cons, List.map_cons, List.find?_cons,
          fdtHit_prop hn (hps List.mem_cons_self),
          ih fun x hx => hps (List.mem_cons_of_mem _ hx)]
        by_cases hfits : FdtFits nodePrefix propName buflen (n, p)
        · simp [hfits]
        · simp [hfits]
  rw [FdtNode.events, List.findSome?_append, hnode, Option.none_or]
  exact hprops n.props (List.Subset.refl _)

/-- The first hit in a block is the first property that fits. -/
theorem findSome_fdtEvents {F : OrderedForest FdtNode}
    (hF : ∀ n ∈ F.labels, n.Readable m strings) :
    (fdtEvents strings F depth).findSome?
        (fdtHit m nodePrefix propName buflen) =
      ((fdtProps F.labels).find? fun x =>
        FdtFits nodePrefix propName buflen x).map fun x => x.2.value := by
  rw [← F.map_snd_preorder depth] at hF ⊢
  rw [fdtEvents, fdtProps]
  generalize F.preorder depth = xs at *
  induction xs with
  | nil => rfl
  | cons x xs ih =>
      rw [List.flatMap_cons, List.findSome?_append, List.map_cons,
        List.flatMap_cons, List.find?_append, Option.map_or,
        findSome_fdtNode (hF x.2 (by simp)),
        ih fun n hn => hF n (List.mem_cons_of_mem _ hn)]

end Lookup

/-! ## The structure block -/

/-- For a well-formed structure block, `fdtree_find_prop` finds the first
property that fits if there is one, and `parse_fdt_node` with callbacks that
return 0 visits the tree and ends behind its root. -/
theorem fdtBlock_spec {m : ByteMemory} {base strings stop : ℕ} {n : FdtNode}
    {children : OrderedForest FdtNode}
    (h : FdtBlockAt m base strings n children stop) :
    ∃ bound, ∀ fuel, bound ≤ fuel →
      (∀ nodePrefix propName buflen buf,
        fdtreeFindProp m fuel base strings nodePrefix propName buflen buf =
          .ok (match (fdtProps (n :: children.labels)).find? fun x =>
              FdtFits nodePrefix propName buflen x with
            | some x => (true, x.2.value)
            | none => (false, buf))) ∧
      ∀ (σ : Type) (cb : FdtCallbacks σ) (upd : FdtEvent → σ → σ),
        (∀ e s, cb.call e s = .ok (0, upd e s)) → ∀ (depth : ℤ) (s : σ),
          parseFdtNode m strings cb fuel base depth s =
            .ok (0, (fdtEvents strings (.cons n children .nil) depth).foldl
              (fun s e => upd e s) s, stop) := by
  refine ⟨n.cost + fdtCost children + 1, ?_⟩
  intro fuel hfuel
  constructor
  · intro nodePrefix propName buflen buf
    have hreadable : ∀ x ∈ (OrderedForest.cons n children .nil).labels,
        x.Readable m strings := by
      obtain ⟨-, -, hname, q₁, q₂, hprops, hchildren, -⟩ := h
      intro x hx
      rcases List.mem_cons.mp hx with rfl | hx
      · exact ⟨hname, hprops.readable⟩
      · apply hchildren.readable
        simpa [OrderedForest.labels] using hx
    have hlabels : (OrderedForest.cons n children .nil).labels =
        n :: children.labels := by simp [OrderedForest.labels]
    rw [fdtreeFindProp, parseFdtNode_block h hfuel,
      visit_search (show (2 : ℤ) ≠ 0 by decide) _
        fun e _ => findFdtreePropCb_call e,
      findSome_fdtEvents hreadable, hlabels]
    cases (fdtProps (n :: children.labels)).find? fun x =>
      FdtFits nodePrefix propName buflen x with
    | some x => rfl
    | none => rfl
  · intro σ cb upd hcb depth s
    rw [parseFdtNode_block h hfuel, visit_of_zero hcb]
    rfl

/-! A root without a name and a node `u@` with the property `r` below it. -/

def sampleBlock : ByteMemory := fun a =>
  ([0, 0, 0, 4, 0, 0, 0, 1, 0, 0, 0, 0,
    0, 0, 0, 1, 117, 64, 0, 0, 0, 0, 0, 4, 0, 0, 0, 3, 0, 0, 0, 1,
    0, 0, 0, 0, 7, 0, 0, 0, 0, 0, 0, 2,
    0, 0, 0, 4, 0, 0, 0, 2, 114, 0] : List UInt8).getD a 0

def sampleBlockRoot : FdtNode := ⟨1, 8, ⟨[], by decide⟩, [], 1⟩

def sampleBlockNode : FdtNode :=
  ⟨0, 16, ⟨[117, 64], by decide⟩, [⟨1, 0, ⟨[114], by decide⟩, 36, [7]⟩], 0⟩

theorem sampleBlock_blockAt : FdtBlockAt sampleBlock 0 52 sampleBlockRoot
    (.cons sampleBlockNode .nil .nil) 52 := by
  have htoken : ∀ q token, readBeU32 sampleBlock q = token →
      TokenAt sampleBlock 0 token q (q + 4) :=
    fun q token h => ⟨q, rfl, h, rfl⟩
  have hbehind : ∀ q token, readBeU32 sampleBlock q = fdtNop →
      readBeU32 sampleBlock (q + 4) = token →
      TokenAt sampleBlock 1 token q (q + 8) :=
    fun q token hnop h => ⟨q + 4, ⟨hnop, rfl⟩, h, rfl⟩
  have hprops : FdtPropsAt sampleBlock 0 52 sampleBlockNode.props 20 40 :=
    ⟨28, hbehind 20 _ (by decide) (by decide), by decide, by decide, rfl,
      by decide, by decide, rfl⟩
  refine ⟨rfl, hbehind 0 _ (by decide) (by decide), by decide, 12, 44, rfl,
    ⟨htoken 12 _ (by decide), 44, ⟨by decide, 40, 40, hprops, rfl,
      htoken 40 _ (by decide)⟩, rfl⟩, hbehind 44 _ (by decide) (by decide)⟩

theorem fdtBlock_spec_sampleBlock : ∃ fuel,
    fdtreeFindProp sampleBlock fuel 0 52 ⟨[117], by decide⟩ ⟨[114], by decide⟩
      1 [0] = .ok (true, [7]) := by
  obtain ⟨bound, h⟩ := fdtBlock_spec sampleBlock_blockAt
  refine ⟨bound, ?_⟩
  rw [(h bound le_rfl).1]
  decide

end PongoOS
