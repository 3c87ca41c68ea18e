import PongoOS.Fdt.Parser

/-!
# `parse_fdt_node` visits the tree

The cursor is followed through a well-formed structure block.  A loop over
properties or children ends with one token read ahead, which is the first token
of what comes next.
-/

namespace PongoOS

section Cursor

variable {m : ByteMemory} {base strings k token fuel ptr ptr' : ℕ}

theorem NopsAt.end_eq (h : NopsAt m k ptr ptr') : ptr' = ptr + 4 * k := by
  induction k generalizing ptr with
  | zero => exact h
  | succ k ih =>
      have hrest := ih h.2
      omega

theorem TokenAt.lt (h : TokenAt m k token ptr ptr') : ptr < ptr' := by
  obtain ⟨q, hnops, -, rfl⟩ := h
  have hq := hnops.end_eq
  omega

/-- A token that was read can be read again. -/
theorem TokenAt.again (h : TokenAt m k token ptr ptr') :
    TokenAt m 0 token (ptr' - 4) ptr' := by
  obtain ⟨q, -, htoken, rfl⟩ := h
  exact ⟨q, rfl, htoken, rfl⟩

theorem TokenAt.read (h : TokenAt m k token ptr ptr') (htoken : token ≠ fdtNop)
    (hfuel : k < fuel) : readToken m fuel ptr = .ok (token, ptr') := by
  induction k generalizing fuel ptr with
  | zero =>
      obtain ⟨fuel, rfl⟩ := Nat.exists_eq_add_of_lt hfuel
      obtain ⟨q, rfl, hread, rfl⟩ := h
      rw [Nat.zero_add, readToken, hread, if_neg htoken]
      rfl
  | succ k ih =>
      obtain ⟨fuel, rfl⟩ : ∃ j, fuel = j + 1 :=
        Nat.exists_eq_add_of_le' (by omega)
      obtain ⟨q, ⟨hnop, hnops⟩, hread⟩ := h
      rw [readToken, if_pos hnop]
      exact ih ⟨q, hnops, hread⟩ (by omega)

/-- The cursor is aligned as the block is. -/
theorem align4_eq (hbase : base % 4 = 0) (hptr : base ≤ ptr) :
    align4 ptr = padded base ptr := by
  unfold align4 padded
  split_ifs
  · omega
  · omega

theorem le_padded (hptr : base ≤ ptr) : ptr ≤ padded base ptr := by
  unfold padded
  omega

theorem FdtPropsAt.le {ps : List FdtProp} (hptr : base ≤ ptr)
    (h : FdtPropsAt m base strings ps ptr ptr') : ptr ≤ ptr' := by
  induction ps generalizing ptr with
  | nil => exact Nat.le_of_eq h.symm
  | cons p ps ih =>
      obtain ⟨q, htoken, -, -, hval, -, -, hps⟩ := h
      have hq := htoken.lt
      have hend : base ≤ p.val + p.value.length := by omega
      have hpad := le_padded hend
      have hrest := ih (Nat.le_trans hend hpad) hps
      omega

theorem FdtForestAt.le {F : OrderedForest FdtNode} (hptr : base ≤ ptr)
    (h : FdtForestAt m base strings F ptr ptr') : ptr ≤ ptr' := by
  induction F generalizing ptr ptr' with
  | nil => exact Nat.le_of_eq h.symm
  | cons n children rest ihc ihr =>
      obtain ⟨htoken, q, ⟨-, q₁, q₂, hprops, hchildren, hend⟩, hrest⟩ := h
      have hname := htoken.lt
      have hbody : base ≤ n.nameAddr + (n.name.bytes.length + 1) := by omega
      have hpad := le_padded hbody
      have hq₁ := hprops.le (Nat.le_trans hbody hpad)
      have hq₂ := ihc (by omega) hchildren
      have hq := hend.lt
      have hrest' := ihr (by omega) hrest
      omega

end Cursor

section Walk

variable {σ : Type} {m : ByteMemory} {cb : FdtCallbacks σ} {s : σ}
  {base strings : ℕ} {depth : ℤ}

theorem FdtCallbacks.callNode_eq (nodeName : ℕ) :
    cb.callNode nodeName depth s = visit cb.call
      (if depth ≠ 0 then [.node nodeName depth] else []) s := by
  unfold callNode
  split_ifs
  · rw [visit_singleton]
  · rfl

/-- The loop over properties ends with the token behind them, which is read
with `k` fuel. -/
theorem parseFdtProps_eq {ps : List FdtProp}
    {nodeName fuel k ptr q token ptr' : ℕ}
    (hbase : base % 4 = 0) (hptr : base ≤ ptr)
    (h : FdtPropsAt m base strings ps ptr q)
    (hnext : ∀ j, k ≤ j → readToken m j q = .ok (token, ptr'))
    (htoken : token ≠ fdtPropToken) (hfuel : fdtPropsCost ps + k < fuel) :
    parseFdtProps m strings cb nodeName depth fuel ptr s =
      returning (token, ptr') (visit cb.call (ps.map fun p =>
        .prop nodeName depth (strings + p.nameoff) p.val p.value.length)
          s) := by
  induction ps generalizing fuel ptr s with
  | nil =>
      obtain ⟨fuel, rfl⟩ : ∃ j, fuel = j + 1 :=
        Nat.exists_eq_add_of_le' (by omega)
      obtain rfl : q = ptr := h
      rw [parseFdtProps, hnext fuel (by omega), Outcome.ok_bind]
      simp only [if_neg htoken]
      rfl
  | cons p ps ih =>
      obtain ⟨fuel, rfl⟩ : ∃ j, fuel = j + 1 :=
        Nat.exists_eq_add_of_le' (by omega)
      obtain ⟨o, hprop, hlen, hnameoff, hval, -, -, hps⟩ := h
      have hcost : fdtPropsCost (p :: ps) = p.nops + 1 + fdtPropsCost ps := by
        simp [fdtPropsCost]
      have ho := hprop.lt
      have hend : base ≤ p.val + p.value.length := by omega
      rw [parseFdtProps, hprop.read (by decide) (by omega), Outcome.ok_bind]
      simp only [if_true, hlen, hnameoff, ← hval]
      rw [List.map_cons, returning_visit_cons]
      apply bind_congr
      rintro ⟨r, s⟩
      dsimp only
      rw [align4_eq hbase hend,
        ih (Nat.le_trans hend (le_padded hend)) hps (by omega)]

/-- The first token of the trees, or of the end of the node they are in: how
many `FDT_NOP` are before it, the token and the cursor behind it. -/
def fdtFirst (endNops stop : ℕ) : OrderedForest FdtNode → ℕ × ℕ × ℕ
  | .nil => (endNops, fdtEndNode, stop)
  | .cons n _ _ => (n.nops, fdtBeginNode, n.nameAddr)

theorem fdtFirst_at {F : OrderedForest FdtNode} {endNops ptr q stop : ℕ}
    (h : FdtForestAt m base strings F ptr q)
    (hend : TokenAt m endNops fdtEndNode q stop) :
    TokenAt m (fdtFirst endNops stop F).1 (fdtFirst endNops stop F).2.1 ptr
      (fdtFirst endNops stop F).2.2 := by
  cases F with
  | nil =>
      obtain rfl : q = ptr := h
      exact hend
  | cons n children rest => exact h.1

theorem fdtFirst_token (endNops stop : ℕ) (F : OrderedForest FdtNode) :
    (fdtFirst endNops stop F).2.1 = fdtEndNode ∨
      (fdtFirst endNops stop F).2.1 = fdtBeginNode := by
  cases F with
  | nil => exact Or.inl rfl
  | cons n children rest => exact Or.inr rfl

/-- The first token can be read with the fuel for the trees. -/
theorem fdtFirst_read {F : OrderedForest FdtNode} {endNops ptr q stop j : ℕ}
    (h : FdtForestAt m base strings F ptr q)
    (hend : TokenAt m endNops fdtEndNode q stop)
    (hj : fdtCost F + endNops ≤ j) :
    readToken m j ptr = .ok (fdtFirst endNops stop F).2 := by
  apply (fdtFirst_at h hend).read
  · rcases fdtFirst_token endNops stop F with htoken | htoken
    · rw [htoken]
      decide
    · rw [htoken]
      decide
  · cases F with
    | nil =>
        rw [fdtCost] at hj
        exact Nat.lt_of_lt_of_le (Nat.lt_add_of_pos_left Nat.one_pos) hj
    | cons n children rest =>
        rw [fdtCost, FdtNode.cost] at hj
        simp only [fdtFirst]
        omega

theorem fdtFirst_ne_prop (endNops stop : ℕ) (F : OrderedForest FdtNode) :
    (fdtFirst endNops stop F).2.1 ≠ fdtPropToken := by
  rcases fdtFirst_token endNops stop F with htoken | htoken
  · rw [htoken]
    decide
  · rw [htoken]
    decide

/-- A node is visited before its children. -/
theorem parseFdtNode_eq {n : FdtNode} {children : OrderedForest FdtNode}
    {fuel k ptr stop : ℕ} (hbase : base % 4 = 0) (hptr : base ≤ ptr)
    (hbegin : TokenAt m k fdtBeginNode ptr n.nameAddr) (hk : k < fuel)
    (hbody : FdtBodyAt m base strings n (FdtForestAt m base strings children)
      stop)
    (hfuel : n.cost + fdtCost children ≤ fuel)
    (hchildren : ∀ q₁ q₂ s, base ≤ q₁ →
      FdtForestAt m base strings children q₁ q₂ →
      TokenAt m n.endNops fdtEndNode q₂ stop →
      parseFdtChildren m
          (fun ptr s => parseFdtNode m strings cb fuel ptr (depth + 1) s) fuel
          (fdtFirst n.endNops stop children).2.1
          (fdtFirst n.endNops stop children).2.2 s =
        returning (fdtEndNode, stop)
          (visit cb.call (fdtEvents strings children (depth + 1)) s)) :
    parseFdtNode m strings cb (fuel + 1) ptr depth s =
      returning stop (visit cb.call
        (n.events strings depth ++ fdtEvents strings children (depth + 1)) s) := by
  obtain ⟨hname, q₁, q₂, hprops, hforest, hend⟩ := hbody
  have hcost : n.cost = n.nops + n.name.bytes.length + fdtPropsCost n.props +
    n.endNops + 3 := rfl
  have hnext := fun j => fdtFirst_read (j := j) hforest hend
  have hbegins := hbegin.lt
  have hbehind : base ≤ n.nameAddr + (n.name.bytes.length + 1) := by omega
  have hq₁ := hprops.le (Nat.le_trans hbehind (le_padded hbehind))
  rw [parseFdtNode, hbegin.read (by decide) hk, Outcome.ok_bind]
  simp only [ne_eq, not_true_eq_false, if_false]
  rw [FdtNode.events, List.append_assoc, returning_visit_append,
    ← FdtCallbacks.callNode_eq]
  apply bind_congr
  rintro ⟨r, s⟩
  dsimp only
  rw [strlen_of_holds n.name hname (by omega), Outcome.ok_bind,
    align4_eq hbase hbehind,
    parseFdtProps_eq hbase (Nat.le_trans hbehind (le_padded hbehind)) hprops
      hnext (fdtFirst_ne_prop _ _ _) (by omega)]
  by_cases hr : r = 0
  swap
  · simp only [hr, not_false_eq_true, if_true, ne_eq]
  simp only [hr, not_true_eq_false, if_false, ne_eq]
  refine (returning_then _ fun (next : ℕ × ℕ) (s : σ) => (do
    let r ← parseFdtChildren m
      (fun ptr s => parseFdtNode m strings cb fuel ptr (depth + 1) s)
      fuel next.1 next.2 s
    if r.1 ≠ 0 then pure (r.1, r.2.1, 0)
    else if r.2.2.1 ≠ fdtEndNode then pure (1, r.2.1, 0)
    else pure (0, r.2.1, r.2.2.2) : Outcome (ℤ × σ × ℕ))).trans ?_
  rw [returning_visit_append, FdtNode.propEvents]
  apply bind_congr
  rintro ⟨r, s⟩
  by_cases hr : r = 0
  swap
  · simp only [hr, not_false_eq_true, if_true, ne_eq]
  simp only [hr, not_true_eq_false, if_false, ne_eq]
  have hpad := le_padded hbehind
  rw [hchildren q₁ q₂ s (by omega) hforest hend]
  refine (returning_then _ fun (next : ℕ × ℕ) (s : σ) =>
    (if next.1 ≠ fdtEndNode then pure (1, s, 0)
      else pure (0, s, next.2) : Outcome (ℤ × σ × ℕ))).trans ?_
  rw [returning_eq]
  rfl

/-- The loop over children visits the trees and ends with the token that ends
their parent. -/
theorem parseFdtChildren_eq {F : OrderedForest FdtNode}
    {fuel j endNops ptr q stop : ℕ} (hbase : base % 4 = 0) (hptr : base ≤ ptr)
    (hforest : FdtForestAt m base strings F ptr q)
    (hend : TokenAt m endNops fdtEndNode q stop)
    (hfuel : fdtCost F < fuel) (hj : fdtCost F + endNops < j) :
    parseFdtChildren m
        (fun ptr s => parseFdtNode m strings cb fuel ptr depth s) j
        (fdtFirst endNops stop F).2.1 (fdtFirst endNops stop F).2.2 s =
      returning (fdtEndNode, stop)
        (visit cb.call (fdtEvents strings F depth) s) := by
  obtain ⟨j, rfl⟩ : ∃ i, j = i + 1 := Nat.exists_eq_add_of_le' (by omega)
  induction F generalizing fuel j endNops ptr q stop depth s with
  | nil => rfl
  | cons n children rest ihc ihr =>
      obtain ⟨hbegin, q', hbody, hrest⟩ := hforest
      rw [fdtCost] at hfuel hj
      have hcost : n.cost = n.nops + n.name.bytes.length +
        fdtPropsCost n.props + n.endNops + 3 := rfl
      have hname : base ≤ n.nameAddr - 4 := by
        obtain ⟨o, hnops, -, hbehind⟩ := hbegin
        have ho := hnops.end_eq
        omega
      obtain ⟨fuel, rfl⟩ : ∃ i, fuel = i + 1 + 1 :=
        ⟨fuel - 2, by omega⟩
      obtain ⟨j, rfl⟩ : ∃ i, j = i + 1 := Nat.exists_eq_add_of_le' (by omega)
      have hnode : parseFdtNode m strings cb (fuel + 1 + 1) (n.nameAddr - 4)
          depth s = _ :=
        parseFdtNode_eq hbase hname hbegin.again (Nat.succ_pos fuel) hbody
          (by omega) fun q₁ q₂ s hq₁ hforest hend =>
            ihc hq₁ hforest hend (by omega) fuel (by omega)
      rw [parseFdtChildren, fdtFirst, if_pos rfl, hnode, fdtEvents_cons,
        ← List.append_assoc,
        returning_visit_append _ (fdtEvents strings rest depth)]
      refine (returning_then _ fun ptr s => do
        let next ← readToken m (j + 1) ptr
        parseFdtChildren m
          (fun ptr s => parseFdtNode m strings cb (fuel + 1 + 1) ptr depth s)
          (j + 1) next.1 next.2 s).trans ?_
      apply bind_congr
      rintro ⟨r, s⟩
      by_cases hr : r = 0
      swap
      · simp only [hr, not_false_eq_true, if_true, ne_eq]
      simp only [hr, not_true_eq_false, if_false, ne_eq]
      have hbehind : base ≤ q' := by
        obtain ⟨-, q₁, q₂, hprops, hchildren, hlast⟩ := hbody
        have hpad : base ≤ padded base _ :=
          Nat.le_add_right base ((n.nameAddr + (n.name.bytes.length + 1) -
            base + 3) / 4 * 4)
        have hq₁ := hprops.le hpad
        have hq₂ := hchildren.le (Nat.le_trans hpad hq₁)
        have hq' := hlast.lt
        omega
      rw [fdtFirst_read hrest hend (by omega), Outcome.ok_bind]
      exact ihr hbehind hrest hend (by omega) j (by omega)

/-- `parse_fdt_node`, called at a structure block, makes the calls for its
tree and ends behind the root. -/
theorem parseFdtNode_block {n : FdtNode} {children : OrderedForest FdtNode}
    {fuel stop : ℕ} (h : FdtBlockAt m base strings n children stop)
    (hfuel : n.cost + fdtCost children < fuel) :
    parseFdtNode m strings cb fuel base depth s =
      returning stop
        (visit cb.call (fdtEvents strings (.cons n children .nil) depth) s) := by
  obtain ⟨hbase, hbegin, hbody⟩ := h
  have hcost : n.cost = n.nops + n.name.bytes.length +
    fdtPropsCost n.props + n.endNops + 3 := rfl
  obtain ⟨fuel, rfl⟩ : ∃ i, fuel = i + 1 + 1 := ⟨fuel - 2, by omega⟩
  have hnil : fdtEvents strings .nil depth = [] := rfl
  rw [fdtEvents_cons, hnil, List.append_nil]
  exact parseFdtNode_eq hbase le_rfl hbegin (by omega) hbody (by omega)
    fun q₁ q₂ s hq₁ hforest hend =>
      parseFdtChildren_eq hbase hq₁ hforest hend (by omega) (by omega)

end Walk

end PongoOS
