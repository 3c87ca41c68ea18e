import PongoOS.Dtree.Checker

/-!
# Lookups in the device tree

`dt_find` looks for a node by the value of its property `name`, and `dt_prop`
for a property of one node by its key.  Both are callbacks on `dt_parse` which
stop the walk when they have found what they look for.
-/

namespace PongoOS

/-! ## The callbacks -/

/-- `"name"`. -/
def nameKey : CString := ⟨[110, 97, 109, 101], by decide⟩

/-- `dt_find_cb`, whose state is `arg->node`. -/
def dtFindCb (mem : ByteMemory) (name : CString) :
    DtCallbacks (Option ℕ) where
  cbNode := none
  cbProp := some fun node _ key val len found =>
    if mem.strEq nameKey.bytes key = true ∧ mem.strEq name.bytes val = true ∧
        name.bytes.length + 1 = len then
      pure (1, some node)
    else pure (0, found)

/-- `dt_find`.  `none` is a null pointer. -/
def dtFind (b : Buffer) (fuel node : ℕ) (name : CString) :
    Outcome (Option ℕ) := do
  let (_, found, _) ← dtParse b (dtFindCb b.mem name) fuel node 0 none
  pure found

/-- `dt_prop_cb`, whose state is `arg->val` with `arg->len`. -/
def dtPropCb (mem : ByteMemory) (key : CString) :
    DtCallbacks (Option (ℕ × ℕ)) where
  cbNode := none
  cbProp := some fun _ _ k val len found =>
    if mem.strEq key.bytes k = true then pure (1, some (val, len))
    else pure (0, found)

/-- `dt_prop`: the value and what is written to `lenp`. -/
def dtProp (b : Buffer) (fuel node : ℕ) (key : CString) :
    Outcome (Option (ℕ × ℕ)) := do
  let (_, found, _) ← dtParse b (dtPropCb b.mem key) fuel node (-1) none
  pure found

/-! ## What is looked for -/

namespace DtProp

variable {mem : ByteMemory} {p : DtProp}

def keyString (mem : ByteMemory) (p : DtProp) : List UInt8 :=
  mem.stringAt p.key dtKeyLen

def value (mem : ByteMemory) (p : DtProp) : List UInt8 :=
  mem.bytesAt p.val p.len

def KeyTerminated (mem : ByteMemory) (p : DtProp) : Prop :=
  0 ∈ mem.bytesAt p.key dtKeyLen

/-- The property is `name`, and its value is this string with its
terminator. -/
def Names (mem : ByteMemory) (name : CString) (p : DtProp) : Prop :=
  p.keyString mem = nameKey.bytes ∧ p.value mem = name.bytes ++ [0]

instance (mem : ByteMemory) (name : CString) (p : DtProp) :
    Decidable (p.Names mem name) :=
  inferInstanceAs (Decidable (_ ∧ _))

theorem strEq_key (h : p.KeyTerminated mem) (s : CString) :
    mem.strEq s.bytes p.key = true ↔ p.keyString mem = s.bytes := by
  rw [ByteMemory.strEq_iff]
  exact ByteMemory.holds_terminated_iff s.nonzero h

theorem strEq_value (s : CString) :
    (mem.strEq s.bytes p.val = true ∧ s.bytes.length + 1 = p.len) ↔
      p.value mem = s.bytes ++ [0] := by
  rw [ByteMemory.strEq_iff]
  constructor
  · rintro ⟨hval, hlen⟩
    rw [value, ← hlen]
    simpa [ByteMemory.Holds] using hval
  · intro hval
    have hlen := congrArg List.length hval
    rw [value, ByteMemory.length_bytesAt, List.length_append] at hlen
    rw [value, hlen] at hval
    exact ⟨by simpa [ByteMemory.Holds] using hval, hlen.symm⟩

end DtProp

namespace DtNode

def KeysTerminated (mem : ByteMemory) (a : DtNode) : Prop :=
  ∀ p ∈ a.props, p.KeyTerminated mem

/-- A property `name` of the node has this string as its value. -/
def Named (mem : ByteMemory) (name : CString) (a : DtNode) : Prop :=
  ∃ p ∈ a.props, p.Names mem name

instance (mem : ByteMemory) (name : CString) (a : DtNode) :
    Decidable (a.Named mem name) :=
  inferInstanceAs (Decidable (∃ p ∈ a.props, _))

end DtNode

/-! ## Hits -/

section Hits

variable {mem : ByteMemory} {name key : CString} {a : DtNode} {depth : ℤ}

/-- What `dt_find_cb` stops at. -/
def findHit (mem : ByteMemory) (name : CString) : DtEvent → Option ℕ
  | .node _ => none
  | .prop node _ key _ len =>
      if (⟨key, len⟩ : DtProp).Names mem name then some node else none

/-- What `dt_prop_cb` stops at. -/
def propHit (mem : ByteMemory) (key : CString) : DtEvent → Option (ℕ × ℕ)
  | .node _ => none
  | .prop _ _ k val len =>
      if mem.stringAt k dtKeyLen = key.bytes then some (val, len) else none

theorem findHit_prop (p : DtProp) (node val : ℕ) :
    findHit mem name (.prop node depth p.key val p.len) =
      if p.Names mem name then some node else none := rfl

theorem propHit_prop (p : DtProp) (node val len : ℕ) :
    propHit mem key (.prop node depth p.key val len) =
      if p.keyString mem = key.bytes then some (val, len) else none := rfl

theorem dtFindCb_call (hkeys : a.KeysTerminated mem) :
    ∀ e ∈ a.events depth,
      (dtFindCb mem name).call e none =
        .ok (stopped 1 some none (findHit mem name e)) := by
  intro e he
  rcases List.mem_cons.mp he with rfl | he
  · rfl
  · obtain ⟨p, hp, rfl⟩ := List.mem_map.mp he
    have hiff : (mem.strEq nameKey.bytes p.key = true ∧
        mem.strEq name.bytes p.val = true ∧ name.bytes.length + 1 = p.len) ↔
          p.Names mem name :=
      and_congr (DtProp.strEq_key (hkeys p hp) nameKey) (DtProp.strEq_value name)
    rw [findHit_prop]
    by_cases hnames : p.Names mem name
    · rw [if_pos hnames]
      exact if_pos (hiff.mpr hnames)
    · rw [if_neg hnames]
      exact if_neg fun h => hnames (hiff.mp h)

theorem dtPropCb_call (hkeys : a.KeysTerminated mem) :
    ∀ e ∈ a.propEvents depth,
      (dtPropCb mem key).call e none =
        .ok (stopped 1 some none (propHit mem key e)) := by
  intro e he
  obtain ⟨p, hp, rfl⟩ := List.mem_map.mp he
  have hiff := DtProp.strEq_key (hkeys p hp) key
  rw [propHit_prop]
  by_cases hkey : p.keyString mem = key.bytes
  · rw [if_pos hkey]
    exact if_pos (hiff.mpr hkey)
  · rw [if_neg hkey]
    exact if_neg fun h => hkey (hiff.mp h)

/-- Among the events of a node there is a hit if the node is named so. -/
theorem findSome_events : (a.events depth).findSome? (findHit mem name) =
    if a.Named mem name then some a.addr else none := by
  have hprops : ∀ ps : List DtProp,
      (ps.map fun p => (DtEvent.prop a.addr depth p.key p.val p.len)).findSome?
        (findHit mem name) =
      if ∃ p ∈ ps, p.Names mem name then some a.addr else none := by
    intro ps
    induction ps with
    | nil => simp
    | cons p ps ih =>
        rw [List.map_cons, List.findSome?_cons, ih, findHit_prop]
        by_cases hnames : p.Names mem name
        · simp [hnames]
        · simp [hnames]
  exact hprops a.props

theorem findSome_propEvents : (a.propEvents depth).findSome? (propHit mem key) =
    (a.props.find? fun p => p.keyString mem = key.bytes).map
      fun p => (p.val, p.len) := by
  rw [DtNode.propEvents]
  induction a.props with
  | nil => rfl
  | cons p ps ih =>
      rw [List.map_cons, List.findSome?_cons, List.find?_cons, ih, propHit_prop]
      by_cases hkey : p.keyString mem = key.bytes
      · simp [hkey]
      · simp [hkey]

/-- The first hit in a tree is in the first node that is named so. -/
theorem findSome_dtEvents (F : OrderedForest DtNode) :
    (dtEvents F depth).findSome? (findHit mem name) =
      (F.labels.find? fun a => a.Named mem name).map DtNode.addr := by
  rw [dtEvents, ← F.map_snd_preorder depth]
  induction F.preorder depth with
  | nil => rfl
  | cons x xs ih =>
      rw [List.flatMap_cons, List.findSome?_append, findSome_events, ih,
        List.map_cons, List.find?_cons]
      by_cases hnamed : x.2.Named mem name
      · simp [hnamed]
      · simp [hnamed]

end Hits

/-! ## The lookups -/

section Lookups

variable {b : Buffer} {node off off' used fuel : ℕ} {a : DtNode}
  {children : OrderedForest DtNode}

/-- The properties of every node in the trees are where the node says. -/
theorem ForestAt.props_of_mem {F : OrderedForest DtNode}
    (h : ForestAt b F node off off') :
    ∀ c ∈ F.labels, b.load32 c.addr = .ok c.props.length ∧
      ∃ off, PropsAt b c.addr c.props dtNodeSize off := by
  induction F generalizing node off off' with
  | nil =>
      intro c hc
      cases hc
  | cons a children rest ihc ihr =>
      obtain ⟨-, used, ⟨hnprop, -, off₁, hprops, hchildren⟩, hrest⟩ := h
      intro c hc
      rw [OrderedForest.labels, List.mem_cons, List.mem_append] at hc
      rcases hc with rfl | hc | hc
      · exact ⟨hnprop, off₁, hprops⟩
      · exact ihc hchildren c hc
      · exact ihr hrest c hc

theorem props_of_mem_tree (h : TreeAt b a children used) :
    ∀ c ∈ a :: children.labels, b.load32 c.addr = .ok c.props.length ∧
      ∃ off, PropsAt b c.addr c.props dtNodeSize off := by
  obtain ⟨hnprop, -, off₁, hprops, hchildren⟩ := h
  intro c hc
  rcases List.mem_cons.mp hc with rfl | hc
  · exact ⟨hnprop, off₁, hprops⟩
  · exact hchildren.props_of_mem c hc

theorem dtEvents_tree (a : DtNode) (children : OrderedForest DtNode)
    (depth : ℤ) : dtEvents (.cons a children .nil) depth =
      a.events depth ++ dtEvents children (depth + 1) := by
  rw [dtEvents_cons]
  exact congrArg _ (List.append_nil _)

theorem dtFind_tree {name : CString} (htree : TreeAt b a children used)
    (hfuel : children.height ≤ fuel)
    (hkeys : ∀ c ∈ a :: children.labels, c.KeysTerminated b.mem) :
    dtFind b (fuel + 1) a.addr name =
      .ok (((a :: children.labels).find? fun c => c.Named b.mem name).map
        DtNode.addr) := by
  have hcalls : ∀ e ∈ dtEvents (.cons a children .nil) 0,
      (dtFindCb b.mem name).call e none =
        .ok (stopped 1 some none (findHit b.mem name e)) := by
    intro e he
    obtain ⟨x, hx, he⟩ := List.mem_flatMap.mp he
    have hlabel : x.2 ∈ a :: children.labels := by
      have hmem := List.mem_map_of_mem (f := Prod.snd) hx
      rw [OrderedForest.map_snd_preorder, OrderedForest.labels] at hmem
      simpa [OrderedForest.labels] using hmem
    exact dtFindCb_call (hkeys _ hlabel) e he
  have hlabels : (OrderedForest.cons a children .nil).labels =
      a :: children.labels := by simp [OrderedForest.labels]
  rw [dtFind, dtParse_tree le_rfl hfuel htree, ← dtEvents_tree,
    visit_search Int.one_ne_zero _ hcalls, findSome_dtEvents, hlabels]
  exact congrArg Except.ok (stopped_some_snd 1 _)

/-- `dt_prop` does not look below the node. -/
theorem dtProp_node {key : CString}
    (hnprop : b.load32 a.addr = .ok a.props.length)
    (hprops : PropsAt b a.addr a.props dtNodeSize off)
    (hkeys : a.KeysTerminated b.mem) :
    dtProp b (fuel + 1) a.addr key =
      .ok ((a.props.find? fun p => p.keyString b.mem = key.bytes).map
        fun p => (p.val, p.len)) := by
  have hcalls : ∀ e ∈ a.events (-1), (dtPropCb b.mem key).call e none =
      .ok (stopped 1 some none (propHit b.mem key e)) := by
    intro e he
    rcases List.mem_cons.mp he with rfl | he
    · rfl
    · exact dtPropCb_call hkeys e he
  rw [dtProp, dtParse_shallow (by decide) rfl hnprop hprops,
    visit_search Int.one_ne_zero _ hcalls, DtNode.events, List.findSome?_cons]
  rw [propHit, findSome_propEvents]
  exact congrArg Except.ok (stopped_some_snd 1 _)

end Lookups

/-- In a tree that `dt_check` accepts, `dt_find` returns the first node in
preorder that is named so, and `dt_prop` the first property of the node itself
that has the key.  Either returns a null pointer if there is none. -/
theorem dtLookup_first {mem : ByteMemory} {fuel size off : ℕ}
    (hsize : size < 2 ^ 32)
    (h : dtCheck ⟨mem, size⟩ fuel 0 size = .ok (some off)) :
    ∃ a children, a.addr = 0 ∧ TreeAt ⟨mem, size⟩ a children off ∧
      ((∀ c ∈ a :: children.labels, c.KeysTerminated mem) →
        ∃ bound, ∀ fuel', bound ≤ fuel' →
          (∀ name, dtFind ⟨mem, size⟩ fuel' 0 name =
            .ok (((a :: children.labels).find? fun c => c.Named mem name).map
              DtNode.addr)) ∧
          ∀ c ∈ a :: children.labels, ∀ key,
            dtProp ⟨mem, size⟩ fuel' c.addr key =
              .ok ((c.props.find? fun p => p.keyString mem = key.bytes).map
                fun p => (p.val, p.len))) := by
  obtain ⟨-, a, children, haddr, hheight, htree, -⟩ := dtCheck_ok hsize h
  refine ⟨a, children, haddr, htree, ?_⟩
  intro hkeys
  refine ⟨fuel + 1, ?_⟩
  intro fuel' hfuel'
  obtain ⟨fuel', rfl⟩ : ∃ k, fuel' = k + 1 :=
    Nat.exists_eq_add_of_le' (by omega)
  constructor
  · intro name
    rw [← haddr]
    exact dtFind_tree htree (by omega) hkeys
  · intro c hc key
    obtain ⟨hnprop, off', hprops⟩ := props_of_mem_tree htree c hc
    exact dtProp_node hnprop hprops (hkeys c hc)

def sampleRoot : DtNode := ⟨0, [⟨8, 2⟩]⟩

def sampleChildren : OrderedForest DtNode :=
  .cons ⟨48, [⟨56, 2⟩]⟩ .nil .nil

theorem sampleTree_treeAt :
    TreeAt ⟨sampleTree, 96⟩ sampleRoot sampleChildren 96 := by
  have hload : ∀ a n, a + 4 ≤ 96 →
      littleEndian (sampleTree.bytesAt a 4) = n →
      (⟨sampleTree, 96⟩ : Buffer).load32 a = .ok n := by
    rintro a n ha rfl
    exact if_pos ha
  have hlen : ∀ node off, node + off + 36 ≤ 96 →
      littleEndian (sampleTree.bytesAt (node + off + 32) 4) % 2 ^ 24 = 2 →
      dtPropLen ⟨sampleTree, 96⟩ node off = .ok 2 := by
    intro node off hoff hn
    rw [dtPropLen, dtKeyLen, hload _ _ (by omega) rfl, Outcome.ok_bind, hn]
    rfl
  refine ⟨hload _ _ (by decide) (by decide), hload _ _ (by decide) (by decide),
    48, ⟨rfl, hlen _ _ (by decide) (by decide), rfl⟩, rfl, 48,
    ⟨hload _ _ (by decide) (by decide), hload _ _ (by decide) (by decide),
      48, ⟨rfl, hlen _ _ (by decide) (by decide), rfl⟩, rfl⟩, rfl⟩

theorem sampleTree_keysTerminated : ∀ c ∈ sampleRoot :: sampleChildren.labels,
    c.KeysTerminated sampleTree := by
  have hroot : sampleRoot.KeysTerminated sampleTree := by
    unfold DtNode.KeysTerminated DtProp.KeyTerminated
    decide
  have hchild : (⟨48, [⟨56, 2⟩]⟩ : DtNode).KeysTerminated sampleTree := by
    unfold DtNode.KeysTerminated DtProp.KeyTerminated
    decide
  intro c hc
  rcases List.mem_cons.mp hc with rfl | hc
  · exact hroot
  · rw [show c = ⟨48, [⟨56, 2⟩]⟩ by simpa [sampleChildren,
      OrderedForest.labels] using hc]
    exact hchild

theorem dtLookup_first_sampleTree : ∃ fuel,
    dtFind ⟨sampleTree, 96⟩ fuel 0 ⟨[98], by decide⟩ = .ok (some 48) ∧
      dtProp ⟨sampleTree, 96⟩ fuel 48 nameKey = .ok (some (92, 2)) := by
  obtain ⟨a, children, haddr, htree, hlookup⟩ :=
    dtLookup_first (by decide) dtCheck_sampleTree
  obtain ⟨rfl, rfl, -⟩ := htree.unique haddr sampleTree_treeAt
  obtain ⟨bound, hlookup⟩ := hlookup sampleTree_keysTerminated
  obtain ⟨hfind, hprop⟩ := hlookup bound le_rfl
  refine ⟨bound, ?_, ?_⟩
  · rw [hfind]
    decide
  · have hchild := hprop ⟨48, [⟨56, 2⟩]⟩
      (by simp [sampleChildren, OrderedForest.labels]) nameKey
    rw [hchild]
    decide

end PongoOS
