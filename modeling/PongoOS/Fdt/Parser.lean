import PongoOS.Support.ByteMemory
import PongoOS.Support.OrderedForest
import PongoOS.Support.Visit

/-!
# The flattened device tree

The structure block is a sequence of tokens.  A node is a token that begins it,
its name, its properties, its children and a token that ends it.  Names and
values are padded to four bytes, and there may be `FDT_NOP` tokens before any
other token.

`parse_fdt_node` reads the block with a cursor.  It finds out that the
properties of a node are over, or its children, by reading one token more, and
where this token begins a child the cursor is put back before it.
-/

namespace PongoOS

def fdtBeginNode : ℕ := 1

def fdtEndNode : ℕ := 2

def fdtPropToken : ℕ := 3

def fdtNop : ℕ := 4

/-- What `read_be_u32` returns.  It moves the cursor on by four bytes. -/
def readBeU32 (m : ByteMemory) (ptr : ℕ) : ℕ := bigEndian (m.bytesAt ptr 4)

def align4 (ptr : ℕ) : ℕ :=
  if ptr % 4 ≠ 0 then ptr + (4 - ptr % 4) else ptr

/-- `read_token`: the token and the cursor behind it. -/
def readToken (m : ByteMemory) : ℕ → ℕ → Outcome (ℕ × ℕ)
  | 0, _ => .error .outOfFuel
  | fuel + 1, ptr =>
      if readBeU32 m ptr = fdtNop then readToken m fuel (ptr + 4)
      else pure (readBeU32 m ptr, ptr + 4)

/-! ## `parse_fdt_node` -/

/-- What the callbacks are called for. -/
inductive FdtEvent where
  | node (nodeName : ℕ) (depth : ℤ)
  | prop (nodeName : ℕ) (depth : ℤ) (propName val len : ℕ)
deriving DecidableEq, Repr

/-- `cb_node` and `cb_prop`. -/
structure FdtCallbacks (σ : Type) where
  cbNode : Option (ℕ → ℤ → σ → Outcome (ℤ × σ))
  cbProp : ℕ → ℤ → ℕ → ℕ → ℕ → σ → Outcome (ℤ × σ)

/-- A null callback counts as one that returns 0. -/
def FdtCallbacks.call {σ : Type} (cb : FdtCallbacks σ) :
    FdtEvent → σ → Outcome (ℤ × σ)
  | .node nodeName depth, s =>
      match cb.cbNode with
      | some f => f nodeName depth s
      | none => pure (0, s)
  | .prop nodeName depth propName val len, s =>
      cb.cbProp nodeName depth propName val len s

/-- There is no call for the root node. -/
def FdtCallbacks.callNode {σ : Type} (cb : FdtCallbacks σ) (nodeName : ℕ)
    (depth : ℤ) (s : σ) : Outcome (ℤ × σ) :=
  if depth ≠ 0 then cb.call (.node nodeName depth) s else pure (0, s)

section Parse

variable {σ : Type}

/-- The loop over properties.  The results are what is returned, the state and,
where 0 is returned, the token behind the properties and the cursor. -/
def parseFdtProps (m : ByteMemory) (strings : ℕ) (cb : FdtCallbacks σ)
    (nodeName : ℕ) (depth : ℤ) : ℕ → ℕ → σ → Outcome (ℤ × σ × ℕ × ℕ)
  | 0, _, _ => .error .outOfFuel
  | fuel + 1, ptr, s => do
      let (token, ptr) ← readToken m fuel ptr
      if token = fdtPropToken then do
        let len := readBeU32 m ptr
        let nameoff := readBeU32 m (ptr + 4)
        let val := ptr + 8
        let (res, s) ←
          cb.call (.prop nodeName depth (strings + nameoff) val len) s
        if res ≠ 0 then pure (res, s, 0)
        else
          parseFdtProps m strings cb nodeName depth fuel (align4 (val + len)) s
      else pure (0, s, token, ptr)

/-- The loop over children, where `token` was read last. -/
def parseFdtChildren (m : ByteMemory)
    (parse : ℕ → σ → Outcome (ℤ × σ × ℕ)) :
    ℕ → ℕ → ℕ → σ → Outcome (ℤ × σ × ℕ × ℕ)
  | 0, _, _, _ => .error .outOfFuel
  | fuel + 1, token, ptr, s =>
      if token = fdtBeginNode then do
        let (res, s, ptr) ← parse (ptr - 4) s
        if res ≠ 0 then pure (res, s, 0)
        else do
          let (token, ptr) ← readToken m fuel ptr
          parseFdtChildren m parse fuel token ptr s
      else pure (0, s, token, ptr)

/-- The results are what is returned, the state and, where 0 is returned, the
cursor. -/
def parseFdtNode (m : ByteMemory) (strings : ℕ) (cb : FdtCallbacks σ) :
    ℕ → ℕ → ℤ → σ → Outcome (ℤ × σ × ℕ)
  | 0, _, _, _ => .error .outOfFuel
  | fuel + 1, ptr, depth, s => do
      let (token, nodeName) ← readToken m fuel ptr
      if token ≠ fdtBeginNode then pure (1, s, 0)
      else do
        let (res, s) ← cb.callNode nodeName depth s
        if res ≠ 0 then pure (res, s, 0)
        else do
          let len ← strlen m fuel nodeName
          let (res, s, token, ptr) ← parseFdtProps m strings cb nodeName depth
            fuel (align4 (nodeName + (len + 1))) s
          if res ≠ 0 then pure (res, s, 0)
          else do
            let (res, s, token, ptr) ← parseFdtChildren m
              (fun ptr s => parseFdtNode m strings cb fuel ptr (depth + 1) s)
              fuel token ptr s
            if res ≠ 0 then pure (res, s, 0)
            else if token ≠ fdtEndNode then pure (1, s, 0)
            else pure (0, s, ptr)

end Parse

/-! ## Well-formed structure blocks -/

/-- A property with the number of `FDT_NOP` tokens before it.  `val` is the
address of the value. -/
structure FdtProp where
  nops : ℕ
  nameoff : ℕ
  name : CString
  val : ℕ
  value : List UInt8
deriving DecidableEq, Repr

/-- A node without its children.  `nameAddr` is the address of the name. -/
structure FdtNode where
  nops : ℕ
  nameAddr : ℕ
  name : CString
  props : List FdtProp
  endNops : ℕ
deriving DecidableEq, Repr

section WellFormed

variable (m : ByteMemory)

/-- `k` tokens `FDT_NOP` lie from `ptr` to `ptr'`. -/
def NopsAt : ℕ → ℕ → ℕ → Prop
  | 0, ptr, ptr' => ptr' = ptr
  | k + 1, ptr, ptr' => readBeU32 m ptr = fdtNop ∧ NopsAt k (ptr + 4) ptr'

/-- At `ptr` there is this token, behind `k` tokens `FDT_NOP`. -/
def TokenAt (k token ptr ptr' : ℕ) : Prop :=
  ∃ q, NopsAt m k ptr q ∧ readBeU32 m q = token ∧ ptr' = q + 4

/-- The address behind `ptr` where the block that starts at `base` goes on. -/
def padded (base ptr : ℕ) : ℕ := base + (ptr - base + 3) / 4 * 4

def FdtPropsAt (base strings : ℕ) : List FdtProp → ℕ → ℕ → Prop
  | [], ptr, ptr' => ptr' = ptr
  | p :: ps, ptr, ptr' =>
      ∃ q, TokenAt m p.nops fdtPropToken ptr q ∧
        readBeU32 m q = p.value.length ∧ readBeU32 m (q + 4) = p.nameoff ∧
        p.val = q + 8 ∧ m.Holds p.val p.value ∧
        m.Holds (strings + p.nameoff) (p.name.bytes ++ [0]) ∧
        FdtPropsAt base strings ps (padded base (p.val + p.value.length)) ptr'

/-- Behind the token that begins it the node goes on to `ptr'`. -/
def FdtBodyAt (base strings : ℕ) (n : FdtNode) (childrenAt : ℕ → ℕ → Prop)
    (ptr' : ℕ) : Prop :=
  m.Holds n.nameAddr (n.name.bytes ++ [0]) ∧ ∃ q₁ q₂,
    FdtPropsAt m base strings n.props
      (padded base (n.nameAddr + (n.name.bytes.length + 1))) q₁ ∧
    childrenAt q₁ q₂ ∧ TokenAt m n.endNops fdtEndNode q₂ ptr'

/-- The nodes of the trees lie from `ptr` to `ptr'`. -/
def FdtForestAt (base strings : ℕ) :
    OrderedForest FdtNode → ℕ → ℕ → Prop
  | .nil, ptr, ptr' => ptr' = ptr
  | .cons n children rest, ptr, ptr' =>
      TokenAt m n.nops fdtBeginNode ptr n.nameAddr ∧ ∃ q,
        FdtBodyAt m base strings n (FdtForestAt base strings children) q ∧
        FdtForestAt base strings rest q ptr'

/-- At `base` there is a structure block whose root ends before `stop`. -/
def FdtBlockAt (base strings : ℕ) (n : FdtNode)
    (children : OrderedForest FdtNode) (stop : ℕ) : Prop :=
  base % 4 = 0 ∧ TokenAt m n.nops fdtBeginNode base n.nameAddr ∧
    FdtBodyAt m base strings n (FdtForestAt m base strings children) stop

end WellFormed

/-! ## What is visited -/

def FdtNode.propEvents (strings : ℕ) (depth : ℤ) (n : FdtNode) :
    List FdtEvent :=
  n.props.map fun p =>
    .prop n.nameAddr depth (strings + p.nameoff) p.val p.value.length

/-- A node, if it is not the root, and then its properties. -/
def FdtNode.events (strings : ℕ) (depth : ℤ) (n : FdtNode) : List FdtEvent :=
  (if depth ≠ 0 then [.node n.nameAddr depth] else []) ++
    n.propEvents strings depth

def fdtEvents (strings : ℕ) (F : OrderedForest FdtNode) (depth : ℤ) :
    List FdtEvent :=
  (F.preorder depth).flatMap fun x => x.2.events strings x.1

theorem fdtEvents_cons (strings : ℕ) (n : FdtNode)
    (children rest : OrderedForest FdtNode) (depth : ℤ) :
    fdtEvents strings (.cons n children rest) depth =
      n.events strings depth ++ (fdtEvents strings children (depth + 1) ++
        fdtEvents strings rest depth) := by
  simp only [fdtEvents, OrderedForest.preorder, List.flatMap_cons,
    List.flatMap_append]

/-! ## Fuel -/

def fdtPropsCost (ps : List FdtProp) : ℕ := (ps.map fun p => p.nops + 1).sum

def FdtNode.cost (n : FdtNode) : ℕ :=
  n.nops + n.name.bytes.length + fdtPropsCost n.props + n.endNops + 3

/-- How much fuel is enough for the trees. -/
def fdtCost : OrderedForest FdtNode → ℕ
  | .nil => 1
  | .cons n children rest => n.cost + fdtCost children + fdtCost rest

end PongoOS
