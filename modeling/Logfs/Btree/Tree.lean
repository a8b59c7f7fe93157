import Logfs.Lib.Wp
import Logfs.Btree.Node

/-!
# The B+tree operations of `btree.c`

The operations run on a `Tree`: the fields of `struct btree_head` and a memory
of node addresses.  `NULL` is the address `0`.  A run stops at a failed
`BUG_ON`, at an access to memory that is not a live node, and where the fuel
that bounds the recursion of the model gives out.  Keys are passed by
reference, because `merge` passes one that lies inside the node the callee
changes.
-/

namespace Logfs.Btree

/-- How a run can stop without returning. -/
inductive Stop where
  /-- A failed `BUG_ON`, or `BUG()`. -/
  | bug
  /-- An access outside the live nodes. -/
  | fault
  /-- The bound on the recursion was too small. -/
  | fuel
deriving DecidableEq, Repr

/-- `struct btree_head` with the memory behind it.  `fails` says of the next
allocations which ones return `NULL`; when it is empty they all succeed. -/
structure Tree where
  node : Nat
  height : Nat
  mem : Nat → Option Node
  next : Nat
  fails : List Bool

abbrev TreeM := EStateM Stop Tree

def ENOMEM : Int := 12

/-! ## Memory -/

def load (a : Nat) : TreeM Node := fun t =>
  match t.mem a with
  | some n => .ok n t
  | none => .error .fault t

def store (a : Nat) (n : Node) : TreeM Unit := fun t =>
  match t.mem a with
  | some _ => .ok () { t with mem := Function.update t.mem a (some n) }
  | none => .error .fault t

def free (a : Nat) : TreeM Unit := fun t =>
  match t.mem a with
  | some _ => .ok () { t with mem := Function.update t.mem a none }
  | none => .error .fault t

/-- `btree_node_alloc`; the address is `0` when the allocation fails. -/
def btreeNodeAlloc : TreeM Nat := fun t =>
  match t.fails with
  | true :: fs => .ok 0 { t with fails := fs }
  | fs => .ok t.next
      { t with mem := Function.update t.mem t.next (some zeroNode), next := t.next + 1,
               fails := fs.tail }

/-- `unsigned long *key`: a key of the caller, or a slot of a node. -/
inductive KeyPtr where
  | ext (k : Key)
  | slot (node : Nat) (n : Nat)

def readKey (geo : Geo) : KeyPtr → TreeM Key
  | .ext k => pure k
  | .slot a n => do
    let node ← load a
    pure (bkey geo node n)

/-! ## Queries -/

/-- `btree_init`, in a memory without nodes. -/
def btreeInit (fails : List Bool) : Tree :=
  { node := 0, height := 0, mem := fun _ => none, next := 1, fails := fails }

def btreeLastLoop (geo : Geo) : Nat → Nat → TreeM KeyPtr
  | 0, node => pure (.slot node 0)
  | n + 1, node => do
    let w ← load node
    btreeLastLoop geo n (bval geo w 0)

/-- `btree_last`: a pointer into the leftmost leaf. -/
def btreeLast (geo : Geo) : TreeM (Option KeyPtr) := do
  let t ← get
  if t.height = 0 then pure none
  else some <$> btreeLastLoop geo (t.height - 1) t.node

def btreeLookupLoop (geo : Geo) (key : KeyPtr) : Nat → Nat → TreeM Nat
  | 0, node =>
    if node = 0 then pure 0
    else do
      let k ← readKey geo key
      let w ← load node
      let i := scan (fun i => decide (keycmp geo w i k = 0)) 0 geo.noPairs
      if i < geo.noPairs then pure (bval geo w i) else pure 0
  | n + 1, node => do
    let k ← readKey geo key
    let w ← load node
    let i := scan (fun i => decide (keycmp geo w i k ≤ 0)) 0 geo.noPairs
    if i = geo.noPairs then pure 0
    else if bval geo w i = 0 then pure 0
    else btreeLookupLoop geo key n (bval geo w i)

/-- `btree_lookup`; the value is `0` for `NULL`. -/
def btreeLookup (geo : Geo) (key : KeyPtr) : TreeM Nat := do
  let t ← get
  if t.height = 0 then pure 0
  else btreeLookupLoop geo key (t.height - 1) t.node

/-! ## Descent -/

/-- One turn of the loop of `find_level`. -/
def findStep (geo : Geo) (key : KeyPtr) (node : Nat) : TreeM Nat := do
  let k ← readKey geo key
  let w ← load node
  let i := scan (fun i => decide (keycmp geo w i k ≤ 0)) 0 geo.noPairs
  if i = geo.noPairs ∨ bval geo w i = 0 then
    -- right-most key is too large, update it
    if i = 0 then throw .bug
    else do
      store node (setkey geo w k (i - 1))
      pure (bval geo (setkey geo w k (i - 1)) (i - 1))
  else pure (bval geo w i)

def findLoop (geo : Geo) (key : KeyPtr) : Nat → Nat → TreeM Nat
  | 0, node => pure node
  | n + 1, node => do
    let child ← findStep geo key node
    findLoop geo key n child

/-- `find_level`. -/
def findLevel (geo : Geo) (key : KeyPtr) (level : Nat) : TreeM Nat := do
  let t ← get
  let node ← findLoop geo key (t.height - level) t.node
  if node = 0 then throw .bug else pure node

/-! ## Root changes -/

/-- `btree_grow`. -/
def btreeGrow (geo : Geo) : TreeM Int := do
  let node ← btreeNodeAlloc
  if node = 0 then pure (-ENOMEM)
  else do
    let t ← get
    if t.node ≠ 0 then do
      let root ← load t.node
      let fill := getfill geo root 0
      store node (setval geo (setkey geo zeroNode (bkey geo root (fill - 1)) 0) t.node 0)
    else pure ()
    modify fun t => { t with node := node, height := t.height + 1 }
    pure 0

/-- `btree_shrink`. -/
def btreeShrink (geo : Geo) (fill : Nat) : TreeM Unit := do
  let t ← get
  if fill = 0 ∨ (fill = 1 ∧ t.height > 1) then do
    let w ← load t.node
    modify fun t => { t with node := bval geo w 0, height := t.height - 1 }
    free t.node
  else pure ()

/-! ## Insertion -/

/-- `split`; `ins` is `btree_insert_level`. -/
def split (geo : Geo) (ins : KeyPtr → Nat → Nat → TreeM Int) (node level : Nat) : TreeM Int := do
  let new ← btreeNodeAlloc
  if new = 0 then pure (-ENOMEM)
  else do
    let err ← ins (.slot node (geo.noPairs / 2 - 1)) new (level + 1)
    if err ≠ 0 then do
      free new
      pure err
    else do
      let wnew ← load new
      let wnode ← load node
      let p := splitNodes geo wnew wnode
      store new p.1
      store node p.2
      pure 0

/-- `rebalance_insert`, without `AGGRESSIVE_COMPACTION`. -/
def rebalanceInsert (geo : Geo) (ins : KeyPtr → Nat → Nat → TreeM Int) (child level : Nat) :
    TreeM Int :=
  split geo ins child level

mutual

/-- `btree_insert_level`, up to the label `retry`. -/
def btreeInsertLevel (geo : Geo) : Nat → KeyPtr → Nat → Nat → TreeM Int
  | 0, _, _, _ => throw .fuel
  | fuel + 1, key, val, level =>
    if val = 0 then throw .bug
    else do
      let t ← get
      let err ← if t.height < level then btreeGrow geo else pure 0
      if err ≠ 0 then pure err
      else btreeInsertRetry geo fuel key val level

/-- `btree_insert_level`, from the label `retry` on. -/
def btreeInsertRetry (geo : Geo) : Nat → KeyPtr → Nat → Nat → TreeM Int
  | 0, _, _, _ => throw .fuel
  | fuel + 1, key, val, level => do
    let node ← findLevel geo key level
    let k ← readKey geo key
    let w ← load node
    let pos := getpos geo w k
    let fill := getfill geo w pos
    -- two identical keys are not allowed
    if pos < fill ∧ keycmp geo w pos k = 0 then throw .bug
    else if fill = geo.noPairs then do
      -- need to split node
      let err ← rebalanceInsert geo (btreeInsertLevel geo fuel) node level
      if err ≠ 0 then pure err
      else btreeInsertRetry geo fuel key val level
    else if fill ≥ geo.noPairs then throw .bug
    else do
      -- shift and insert
      store node (setval geo (setkey geo (shiftInsert geo w pos fill) k pos) val pos)
      pure 0

end

/-- Turns of recursion that an operation on a tree of the given height can take. -/
def fuelFor (height : Nat) : Nat := 2 * height + 8

/-- `btree_insert`. -/
def btreeInsert (geo : Geo) (key : KeyPtr) (val : Nat) : TreeM Int := do
  let t ← get
  btreeInsertLevel geo (fuelFor t.height) key val 1

/-! ## Removal -/

/-- `merge`; `rem` is `btree_remove_level`. -/
def merge (geo : Geo) (rem : KeyPtr → Nat → TreeM Nat) (level left lfill right rfill parent
    lpos : Nat) : TreeM Unit := do
  let wl ← load left
  let wr ← load right
  -- Move all entries to the left
  store left (mergeNodes geo wl lfill wr rfill)
  -- Exchange left and right child in parent
  let wp ← load parent
  store parent (setval geo (setval geo wp right lpos) left (lpos + 1))
  -- Remove left (formerly right) child from parent
  let _ ← rem (.slot parent lpos) (level + 1)
  free right

/-- `rebalance`; `rem` is `btree_remove_level`. -/
def rebalance (geo : Geo) (rem : KeyPtr → Nat → TreeM Nat) (key : KeyPtr) (level child fill : Nat) :
    TreeM Unit := do
  let parent ← findLevel geo key (level + 1)
  let k ← readKey geo key
  let wp ← load parent
  let childNo := getpos geo wp k
  if bval geo wp childNo ≠ child then throw .bug
  else do
    let left := if childNo > 0 then bval geo wp (childNo - 1) else 0
    let noLeft ← if childNo > 0 then (fun w => getfill geo w 0) <$> load left else pure 0
    if childNo > 0 ∧ fill + noLeft ≤ geo.noPairs then
      -- Merge with left neighbour
      merge geo rem level left noLeft child fill parent (childNo - 1)
    else do
      let hasRight : Bool := childNo + 1 < getfill geo wp childNo
      let right := if hasRight then bval geo wp (childNo + 1) else 0
      let noRight ← if hasRight then (fun w => getfill geo w 0) <$> load right else pure 0
      if hasRight ∧ fill + noRight ≤ geo.noPairs then
        -- Merge with right neighbour
        merge geo rem level child fill right noRight parent childNo
      else if fill > 1 then pure ()
      else if left ≠ 0 then
        -- Steal from left neighbour
        if (noLeft - fill) / 2 < 1 then throw .bug
        else do
          let wl ← load left
          let wc ← load child
          let r := stealL geo wl noLeft wc fill wp (childNo - 1) ((noLeft - fill) / 2)
          store left r.1
          store child r.2.1
          store parent r.2.2
      else if right ≠ 0 then
        -- Steal from right neighbour
        if (noRight - fill) / 2 < 1 then throw .bug
        else do
          let wc ← load child
          let wr ← load right
          let r := stealR geo wc fill wr noRight wp childNo ((noRight - fill) / 2)
          store child r.1
          store right r.2.1
          store parent r.2.2
      else throw .bug

/-- `btree_remove_level`; the value is `0` for `NULL`. -/
def btreeRemoveLevel (geo : Geo) : Nat → KeyPtr → Nat → TreeM Nat
  | 0, _, _ => throw .fuel
  | fuel + 1, key, level => do
    let t ← get
    if level > t.height then do
      -- we recursed all the way up
      set { t with height := 0, node := 0 }
      pure 0
    else do
      let node ← findLevel geo key level
      let k ← readKey geo key
      let w ← load node
      let pos := getpos geo w k
      let fill := getfill geo w pos
      if level = 1 ∧ keycmp geo w pos k ≠ 0 then pure 0
      else if fill = 0 then throw .fault
      else do
        -- remove and shift
        store node (clearpair geo (shiftRemove geo w pos fill) (fill - 1))
        if fill - 1 < geo.noPairs / 2 then
          if level < t.height then
            rebalance geo (btreeRemoveLevel geo fuel) key level node (fill - 1)
          else btreeShrink geo (fill - 1)
        else pure ()
        pure (bval geo w pos)

/-- `btree_remove`; the value is `0` for `NULL`. -/
def btreeRemove (geo : Geo) (key : KeyPtr) : TreeM Nat := do
  let t ← get
  if t.height = 0 then pure 0
  else btreeRemoveLevel geo (fuelFor t.height) key 1

end Logfs.Btree
