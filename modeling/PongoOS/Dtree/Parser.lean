import PongoOS.Support.Visit
import PongoOS.Support.ByteMemory
import PongoOS.Support.OrderedForest

/-!
# The device tree

A node is a header with the numbers of its properties and of its children, then
the properties and then the children.  A property has a key of fixed size, a
length with a flag in its high byte, and a value which is padded to four bytes.
Where a property or a child starts is computed in 32 bits, relative to the node.

`dt_check` walks over a buffer whose size it knows, and `dt_parse` over one
which it takes to be checked.  The callbacks of `dt_parse` are arbitrary calls
on a state, and one that does not return 0 stops the walk.
-/

namespace PongoOS

/-- Bytes, of which the first `size` may be read. -/
structure Buffer where
  mem : ByteMemory
  size : ℕ

def Buffer.load32 (b : Buffer) (a : ℕ) : Outcome ℕ :=
  if a + 4 ≤ b.size then pure (littleEndian (b.mem.bytesAt a 4))
  else .error (.panic "read outside the buffer")

/-! ## Layout -/

/-- `sizeof(dt_node_t)`. -/
def dtNodeSize : ℕ := 8

/-- `DT_KEY_LEN`. -/
def dtKeyLen : ℕ := 32

/-- `sizeof(dt_prop_t)`. -/
def dtPropSize : ℕ := 36

/-- `prop->len & 0xffffff` of the property at `node + off`. -/
def dtPropLen (b : Buffer) (node off : ℕ) : Outcome ℕ := do
  pure ((← b.load32 (node + off + dtKeyLen)) % 2 ^ 24)

/-- The offset behind a property with a value of `l` bytes. -/
def dtAdvance (off l : ℕ) : ℕ :=
  (off + (dtPropSize + (l + 3) / 4 * 4)) % 2 ^ 32

/-! ## `dt_check` -/

/-- The first loop, with `n` properties to go.  `none` is a result other than
0. -/
def dtCheckProps (b : Buffer) (node size : ℕ) :
    ℕ → ℕ → Outcome (Option ℕ)
  | 0, off => pure (some off)
  | n + 1, off =>
      if size < off + dtPropSize then pure none
      else do
        let off' := dtAdvance off (← dtPropLen b node off)
        if size < off' then pure none
        else dtCheckProps b node size n off'

/-- The second loop, with `n` children to go. -/
def dtCheckChildren (check : ℕ → ℕ → Outcome (Option ℕ)) (node size : ℕ) :
    ℕ → ℕ → Outcome (Option ℕ)
  | 0, off => pure (some off)
  | n + 1, off => do
      match ← check (node + off) (sub32 size off) with
      | none => pure none
      | some add => dtCheckChildren check node size n ((off + add) % 2 ^ 32)

def dtCheck (b : Buffer) : ℕ → ℕ → ℕ → Outcome (Option ℕ)
  | 0, _, _ => .error .outOfFuel
  | fuel + 1, node, size =>
      if size < dtNodeSize then pure none
      else do
        match ← dtCheckProps b node size (← b.load32 node) dtNodeSize with
        | none => pure none
        | some off =>
            dtCheckChildren (dtCheck b fuel) node size
              (← b.load32 (node + 4)) off

/-! ## `dt_parse` -/

/-- What the callbacks are called for. -/
inductive DtEvent where
  | node (node : ℕ)
  | prop (node : ℕ) (depth : ℤ) (key val len : ℕ)
deriving DecidableEq, Repr

/-- `cb_node` and `cb_prop`. -/
structure DtCallbacks (σ : Type) where
  cbNode : Option (ℕ → σ → Outcome (ℤ × σ))
  cbProp : Option (ℕ → ℤ → ℕ → ℕ → ℕ → σ → Outcome (ℤ × σ))

/-- A null callback counts as one that returns 0. -/
def DtCallbacks.call {σ : Type} (cb : DtCallbacks σ) :
    DtEvent → σ → Outcome (ℤ × σ)
  | .node node, s =>
      match cb.cbNode with
      | some f => f node s
      | none => pure (0, s)
  | .prop node depth key val len, s =>
      match cb.cbProp with
      | some f => f node depth key val len s
      | none => pure (0, s)

section Parse

variable {σ : Type}

/-- The first loop, with `n` properties to go.  The results are what is
returned, the state and, where 0 is returned, the offset. -/
def dtParseProps (b : Buffer) (cb : DtCallbacks σ) (node : ℕ) (depth : ℤ) :
    ℕ → ℕ → σ → Outcome (ℤ × σ × ℕ)
  | 0, off, s => pure (0, s, off)
  | n + 1, off, s => do
      let l ← dtPropLen b node off
      let (r, s) ← cb.call
        (.prop node depth (node + off) (node + off + dtPropSize) l) s
      if r ≠ 0 then pure (r, s, 0)
      else dtParseProps b cb node depth n (dtAdvance off l) s

/-- The second loop, with `n` children to go. -/
def dtParseChildren (parse : ℕ → σ → Outcome (ℤ × σ × ℕ)) (node : ℕ) :
    ℕ → ℕ → σ → Outcome (ℤ × σ × ℕ)
  | 0, off, s => pure (0, s, off)
  | n + 1, off, s => do
      let (r, s, add) ← parse (node + off) s
      if r ≠ 0 then pure (r, s, 0)
      else dtParseChildren parse node n ((off + add) % 2 ^ 32) s

/-- The last result is what is written to `offp`. -/
def dtParse (b : Buffer) (cb : DtCallbacks σ) :
    ℕ → ℕ → ℤ → σ → Outcome (ℤ × σ × ℕ)
  | 0, _, _, _ => .error .outOfFuel
  | fuel + 1, node, depth, s => do
      let (r, s) ← cb.call (.node node) s
      if r ≠ 0 then pure (r, s, 0)
      else if 0 ≤ depth ∨ cb.cbProp.isSome then do
        let (r, s, off) ←
          dtParseProps b cb node depth (← b.load32 node) dtNodeSize s
        if r ≠ 0 then pure (r, s, 0)
        else if 0 ≤ depth then do
          dtParseChildren (fun child s => dtParse b cb fuel child (depth + 1) s)
            node (← b.load32 (node + 4)) off s
        else pure (0, s, 0)
      else pure (0, s, 0)

end Parse

/-! ## Trees in a buffer -/

/-- A property with the address of its key. -/
structure DtProp where
  key : ℕ
  len : ℕ
deriving DecidableEq, Repr

/-- `prop->val`. -/
def DtProp.val (p : DtProp) : ℕ := p.key + dtPropSize

structure DtNode where
  addr : ℕ
  props : List DtProp
deriving DecidableEq, Repr

/-- The properties of a node lie from `off` to `off'`. -/
def PropsAt (b : Buffer) (node : ℕ) : List DtProp → ℕ → ℕ → Prop
  | [], off, off' => off' = off
  | p :: ps, off, off' =>
      p.key = node + off ∧ dtPropLen b node off = .ok p.len ∧
        PropsAt b node ps (dtAdvance off p.len) off'

/-- The node has `width` children, which are where `childrenAt` says, and all
of it takes `used` bytes. -/
def NodeAt (b : Buffer) (a : DtNode) (width : ℕ)
    (childrenAt : ℕ → ℕ → ℕ → Prop) (used : ℕ) : Prop :=
  b.load32 a.addr = .ok a.props.length ∧ b.load32 (a.addr + 4) = .ok width ∧
    ∃ off, PropsAt b a.addr a.props dtNodeSize off ∧ childrenAt a.addr off used

/-- The trees lie one behind the other, from `node + off` to `node + off'`. -/
def ForestAt (b : Buffer) : OrderedForest DtNode → ℕ → ℕ → ℕ → Prop
  | .nil, _, off, off' => off' = off
  | .cons a children rest, node, off, off' =>
      a.addr = node + off ∧ ∃ used,
        NodeAt b a children.width (ForestAt b children) used ∧
          ForestAt b rest node ((off + used) % 2 ^ 32) off'

/-- The tree whose root is `a` takes `used` bytes. -/
abbrev TreeAt (b : Buffer) (a : DtNode) (children : OrderedForest DtNode)
    (used : ℕ) : Prop :=
  NodeAt b a children.width (ForestAt b children) used

/-! ## A buffer holds one tree -/

theorem PropsAt.unique {b : Buffer} {node off off₁ off₂ : ℕ}
    {ps₁ ps₂ : List DtProp} (hlength : ps₁.length = ps₂.length)
    (h₁ : PropsAt b node ps₁ off off₁) (h₂ : PropsAt b node ps₂ off off₂) :
    ps₁ = ps₂ ∧ off₁ = off₂ := by
  induction ps₁ generalizing ps₂ off with
  | nil =>
      obtain rfl := List.length_eq_zero_iff.mp hlength.symm
      exact ⟨rfl, h₁.trans h₂.symm⟩
  | cons p₁ ps₁ ih =>
      obtain ⟨p₂, ps₂, rfl⟩ :=
        List.exists_cons_of_length_eq_add_one hlength.symm
      obtain ⟨hkey₁, hlen₁, hrest₁⟩ := h₁
      obtain ⟨hkey₂, hlen₂, hrest₂⟩ := h₂
      have hlen : p₁.len = p₂.len := Except.ok.inj (hlen₁.symm.trans hlen₂)
      rw [hlen] at hrest₁
      obtain ⟨rfl, hoff⟩ := ih (Nat.succ.inj hlength) hrest₁ hrest₂
      have hp : p₁ = p₂ := by
        cases p₁
        cases p₂
        simp_all
      exact ⟨by rw [hp], hoff⟩

theorem ForestAt.unique {b : Buffer} {node off off₁ off₂ : ℕ}
    {F₁ F₂ : OrderedForest DtNode} (hwidth : F₁.width = F₂.width)
    (h₁ : ForestAt b F₁ node off off₁) (h₂ : ForestAt b F₂ node off off₂) :
    F₁ = F₂ ∧ off₁ = off₂ := by
  induction F₁ generalizing F₂ node off off₁ off₂ with
  | nil =>
      cases F₂ with
      | nil => exact ⟨rfl, h₁.trans h₂.symm⟩
      | cons _ _ _ => cases hwidth
  | cons a₁ children₁ rest₁ ihc ihr =>
      cases F₂ with
      | nil => cases hwidth
      | cons a₂ children₂ rest₂ =>
          obtain ⟨ha₁, used₁, ⟨hn₁, hc₁, o₁, hp₁, hk₁⟩, hr₁⟩ := h₁
          obtain ⟨ha₂, used₂, ⟨hn₂, hc₂, o₂, hp₂, hk₂⟩, hr₂⟩ := h₂
          have haddr : a₁.addr = a₂.addr := ha₁.trans ha₂.symm
          rw [haddr] at hn₁ hc₁ hp₁ hk₁
          obtain ⟨hprops, rfl⟩ :=
            hp₁.unique (Except.ok.inj (hn₁.symm.trans hn₂)) hp₂
          obtain ⟨rfl, rfl⟩ :=
            ihc (Except.ok.inj (hc₁.symm.trans hc₂)) hk₁ hk₂
          obtain ⟨rfl, hoff⟩ := ihr (Nat.succ.inj hwidth) hr₁ hr₂
          have ha : a₁ = a₂ := by
            cases a₁
            cases a₂
            simp_all
          exact ⟨by rw [ha], hoff⟩

theorem TreeAt.unique {b : Buffer} {a₁ a₂ : DtNode} {used₁ used₂ : ℕ}
    {children₁ children₂ : OrderedForest DtNode} (haddr : a₁.addr = a₂.addr)
    (h₁ : TreeAt b a₁ children₁ used₁) (h₂ : TreeAt b a₂ children₂ used₂) :
    a₁ = a₂ ∧ children₁ = children₂ ∧ used₁ = used₂ := by
  have hforest₁ : ForestAt b (.cons a₁ children₁ .nil) a₁.addr 0 _ :=
    ⟨rfl, used₁, h₁, rfl⟩
  have hforest₂ : ForestAt b (.cons a₂ children₂ .nil) a₁.addr 0 _ :=
    ⟨haddr.symm, used₂, h₂, rfl⟩
  have hwidth : (OrderedForest.cons a₁ children₁ .nil).width =
      (OrderedForest.cons a₂ children₂ .nil).width := rfl
  obtain ⟨htree, -⟩ := hforest₁.unique hwidth hforest₂
  obtain ⟨rfl, rfl, -⟩ := OrderedForest.cons.inj htree
  obtain ⟨-, -, o₁, hp₁, hk₁⟩ := h₁
  obtain ⟨-, -, o₂, hp₂, hk₂⟩ := h₂
  obtain ⟨-, rfl⟩ := hp₁.unique rfl hp₂
  exact ⟨rfl, rfl, (hk₁.unique rfl hk₂).2⟩

/-! ## What is visited -/

/-- The properties of a node at this depth. -/
def DtNode.propEvents (a : DtNode) (depth : ℤ) : List DtEvent :=
  a.props.map fun p => .prop a.addr depth p.key p.val p.len

/-- A node and then its properties. -/
def DtNode.events (a : DtNode) (depth : ℤ) : List DtEvent :=
  .node a.addr :: a.propEvents depth

/-- The nodes of the trees in preorder, each with its properties. -/
def dtEvents (F : OrderedForest DtNode) (depth : ℤ) : List DtEvent :=
  (F.preorder depth).flatMap fun x => x.2.events x.1

theorem dtEvents_cons (a : DtNode) (children rest : OrderedForest DtNode)
    (depth : ℤ) : dtEvents (.cons a children rest) depth =
      a.events depth ++ (dtEvents children (depth + 1) ++ dtEvents rest depth) := by
  simp only [dtEvents, OrderedForest.preorder, List.flatMap_cons,
    List.flatMap_append]

/-! ## `dt_parse` visits the tree -/

section ParseSpec

variable {σ : Type} {b : Buffer} {cb : DtCallbacks σ} {s : σ}

theorem dtParseProps_eq {node off off' : ℕ} {depth : ℤ} {ps : List DtProp}
    (h : PropsAt b node ps off off') :
    dtParseProps b cb node depth ps.length off s =
      returning off' (visit cb.call
        (ps.map fun p => .prop node depth p.key p.val p.len) s) := by
  induction ps generalizing off s with
  | nil =>
      obtain rfl : off' = off := h
      rfl
  | cons p ps ih =>
      obtain ⟨hkey, hlen, hps⟩ := h
      rw [List.map_cons, returning_visit_cons, List.length_cons, dtParseProps,
        hlen, DtProp.val, hkey, Outcome.ok_bind]
      apply bind_congr
      rintro ⟨r, s⟩
      dsimp only
      rw [ih hps]

/-- A node whose children are visited is visited before them. -/
theorem dtParse_node {a : DtNode} {children : OrderedForest DtNode}
    {fuel used off : ℕ} {depth : ℤ} (hdepth : 0 ≤ depth)
    (hnprop : b.load32 a.addr = .ok a.props.length)
    (hnchld : b.load32 (a.addr + 4) = .ok children.width)
    (hprops : PropsAt b a.addr a.props dtNodeSize off)
    (hchildren : ∀ s, dtParseChildren
        (fun child s => dtParse b cb fuel child (depth + 1) s) a.addr
        children.width off s =
      returning used (visit cb.call (dtEvents children (depth + 1)) s)) :
    dtParse b cb (fuel + 1) a.addr depth s =
      returning used (visit cb.call
        (a.events depth ++ dtEvents children (depth + 1)) s) := by
  rw [DtNode.events, List.cons_append, returning_visit_cons, dtParse]
  apply bind_congr
  intro rs
  simp only [hdepth, true_or, if_true, hnprop, hnchld, Outcome.ok_bind,
    dtParseProps_eq hprops]
  rw [returning_visit_append]
  simp only [returning_then, hchildren]
  rfl

/-- With a negative depth a node is visited without its children. -/
theorem dtParse_shallow {a : DtNode} {fuel off : ℕ} {depth : ℤ}
    (hdepth : depth < 0) (hcb : cb.cbProp.isSome)
    (hnprop : b.load32 a.addr = .ok a.props.length)
    (hprops : PropsAt b a.addr a.props dtNodeSize off) :
    dtParse b cb (fuel + 1) a.addr depth s =
      returning 0 (visit cb.call (a.events depth) s) := by
  rw [DtNode.events, returning_visit_cons, dtParse]
  apply bind_congr
  rintro ⟨r, s⟩
  simp only [hcb, or_true, if_true, hnprop, Outcome.ok_bind,
    dtParseProps_eq hprops, if_neg (Int.not_le.mpr hdepth)]
  rw [← DtNode.propEvents, returning_then _ fun _ s => pure (0, s, 0),
    returning_eq]

/-- The loop over children visits the trees. -/
theorem dtParseChildren_eq {F : OrderedForest DtNode} {fuel node off off' : ℕ}
    {depth : ℤ} (hdepth : 0 ≤ depth) (hfuel : F.height ≤ fuel)
    (h : ForestAt b F node off off') :
    dtParseChildren (fun child s => dtParse b cb fuel child depth s) node
        F.width off s =
      returning off' (visit cb.call (dtEvents F depth) s) := by
  induction F generalizing fuel node off off' depth s with
  | nil =>
      obtain rfl : off' = off := h
      rfl
  | cons a children rest ihc ihr =>
      obtain ⟨haddr, used, ⟨hnprop, hnchld, off₁, hprops, hchildren⟩, hrest⟩ := h
      rw [OrderedForest.height] at hfuel
      obtain ⟨fuel, rfl⟩ : ∃ k, fuel = k + 1 :=
        Nat.exists_eq_add_of_le' (by omega)
      have hbelow : ∀ s, dtParseChildren
          (fun child s => dtParse b cb fuel child (depth + 1) s) a.addr
          children.width off₁ s =
            returning used (visit cb.call (dtEvents children (depth + 1)) s) :=
        fun s => ihc (by omega) (by omega) hchildren
      have hfuel' : rest.height ≤ fuel + 1 := by omega
      rw [OrderedForest.width, dtParseChildren, dtEvents_cons, ← haddr,
        dtParse_node hdepth hnprop hnchld hprops hbelow, ← List.append_assoc,
        returning_visit_append _ (dtEvents rest depth)]
      refine (returning_then _ fun add s => dtParseChildren
        (fun child s => dtParse b cb (fuel + 1) child depth s) node rest.width
        ((off + add) % 2 ^ 32) s).trans ?_
      apply bind_congr
      rintro ⟨r, s⟩
      dsimp only
      rw [ihr hdepth hfuel' hrest]

/-- `dt_parse`, started at a tree, makes the calls for the tree. -/
theorem dtParse_tree {a : DtNode} {children : OrderedForest DtNode}
    {fuel used : ℕ} {depth : ℤ} (hdepth : 0 ≤ depth)
    (hfuel : children.height ≤ fuel) (h : TreeAt b a children used) :
    dtParse b cb (fuel + 1) a.addr depth s =
      returning used (visit cb.call
        (a.events depth ++ dtEvents children (depth + 1)) s) := by
  obtain ⟨hnprop, hnchld, off, hprops, hchildren⟩ := h
  exact dtParse_node hdepth hnprop hnchld hprops fun s =>
    dtParseChildren_eq (by omega) hfuel hchildren

end ParseSpec

end PongoOS
