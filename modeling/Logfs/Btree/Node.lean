import Logfs.Lib.Loop
import Mathlib.Data.List.Lex
import Mathlib.Order.Lattice

/-!
# B+tree nodes as flat arrays of words

A node is `[key0, ..., keyN] [val0, ..., valN]`: `no_pairs * keylen` key words
followed by `no_pairs` value words.  Keys are compared word by word, slots are
kept in descending key order, and unused slots are all zero.  This module holds
the accessors of a node and the loops of `btree.c` that move pairs inside a
node or between neighbouring nodes.
-/

namespace Logfs.Btree

/-- A key: `keylen` words, most significant first. -/
abbrev Key := List Nat

/-- The words of a node. -/
abbrev Node := Nat → Nat

/-- `struct btree_geo`. -/
structure Geo where
  keylen : Nat
  noPairs : Nat
deriving DecidableEq, Repr

/-- `NODESIZE`, in bytes. -/
def nodesize : Nat := 128

/-- `LONG_PER_U64` for words of `bits` bits. -/
def longPerU64 (bits : Nat) : Nat := 64 / bits

/-- `btree_geo32` on a machine with words of `bits` bits. -/
def btreeGeo32 (bits : Nat) : Geo := ⟨1, nodesize / (bits / 8) / 2⟩

/-- `btree_geo64`. -/
def btreeGeo64 (bits : Nat) : Geo :=
  ⟨longPerU64 bits, nodesize / (bits / 8) / (1 + longPerU64 bits)⟩

/-- `btree_geo128`. -/
def btreeGeo128 (bits : Nat) : Geo :=
  ⟨2 * longPerU64 bits, nodesize / (bits / 8) / (1 + 2 * longPerU64 bits)⟩

/-- The geometries the tree operations are correct for. -/
structure Geo.Ok (geo : Geo) : Prop where
  four_le : 4 ≤ geo.noPairs

/-- Each exported geometry is one of them, on 32 and on 64 bit machines. -/
theorem exported_geo_ok : ∀ bits ∈ [32, 64],
    (btreeGeo32 bits).Ok ∧ (btreeGeo64 bits).Ok ∧ (btreeGeo128 bits).Ok := by
  intro bits hb
  simp only [List.mem_cons, List.not_mem_nil, or_false] at hb
  rcases hb with rfl | rfl <;> refine ⟨⟨?_⟩, ⟨?_⟩, ⟨?_⟩⟩ <;> decide

/-! ## Accessors -/

/-- `longcmp`. -/
def longcmp : Key → Key → Int
  | a :: l1, b :: l2 => if a < b then -1 else if a > b then 1 else longcmp l1 l2
  | _, _ => 0

/-- The key of all zero words, which unused slots hold. -/
def zeroKey (geo : Geo) : Key := List.replicate geo.keylen 0

/-- The `keylen` words at `bkey(geo, node, n)`. -/
def bkey (geo : Geo) (node : Node) (n : Nat) : Key :=
  (List.range geo.keylen).map fun j => node (n * geo.keylen + j)

def bval (geo : Geo) (node : Node) (n : Nat) : Nat :=
  node (geo.noPairs * geo.keylen + n)

/-- `longcpy(bkey(geo, node, n), key, geo->keylen)`. -/
def setkey (geo : Geo) (node : Node) (key : Key) (n : Nat) : Node := fun w =>
  if n * geo.keylen ≤ w ∧ w < n * geo.keylen + geo.keylen then key.getD (w - n * geo.keylen) 0
  else node w

def setval (geo : Geo) (node : Node) (val : Nat) (n : Nat) : Node := fun w =>
  if w = geo.noPairs * geo.keylen + n then val else node w

def clearpair (geo : Geo) (node : Node) (n : Nat) : Node :=
  setval geo (setkey geo node (zeroKey geo) n) 0 n

/-- `calloc(1, NODESIZE)`. -/
def zeroNode : Node := fun _ => 0

def keycmp (geo : Geo) (node : Node) (pos : Nat) (key : Key) : Int :=
  longcmp (bkey geo node pos) key

def getpos (geo : Geo) (node : Node) (key : Key) : Nat :=
  scan (fun i => decide (keycmp geo node i key ≤ 0)) 0 geo.noPairs

def getfill (geo : Geo) (node : Node) (start : Nat) : Nat :=
  scan (fun i => bval geo node i == 0) start (geo.noPairs - start)

/-! ## Loops over the pairs of nodes -/

/-- `setkey(geo, dst, bkey(geo, src, j), i); setval(geo, dst, bval(geo, src, j), i);` -/
def movepair (geo : Geo) (dst src : Node) (i j : Nat) : Node :=
  setval geo (setkey geo dst (bkey geo src j) i) (bval geo src j) i

/-- The shift of `btree_insert_level`: `for (i = fill; i > pos; i--)`. -/
def shiftInsert (geo : Geo) (node : Node) (pos fill : Nat) : Node :=
  forDown pos (fill - pos) (fun i n => movepair geo n n i (i - 1)) node

/-- The shift of `btree_remove_level`: `for (i = pos; i < fill - 1; i++)`. -/
def shiftRemove (geo : Geo) (node : Node) (pos fill : Nat) : Node :=
  forUp pos (fill - 1 - pos) (fun i n => movepair geo n n i (i + 1)) node

/-- The copying loops of `split`: the new left node and the old node. -/
def splitNodes (geo : Geo) (new node : Node) : Node × Node :=
  let fill := geo.noPairs
  let p := forUp 0 (fill / 2) (fun i (p : Node × Node) =>
    let new := movepair geo p.1 p.2 i i
    let node := movepair geo p.2 p.2 i (i + fill / 2)
    (new, clearpair geo node (i + fill / 2))) (new, node)
  if fill % 2 = 1 then
    (p.1, clearpair geo (movepair geo p.2 p.2 (fill / 2) (fill - 1)) (fill - 1))
  else p

/-- The copying loop of `merge`. -/
def mergeNodes (geo : Geo) (left : Node) (lfill : Nat) (right : Node) (rfill : Nat) : Node :=
  forUp 0 rfill (fun i l => movepair geo l right (lfill + i) i) left

/-- `steal_l`: the left node, the right node and the parent. -/
def stealL (geo : Geo) (left : Node) (lfill : Nat) (right : Node) (rfill : Nat) (parent : Node)
    (lpos noEntries : Nat) : Node × Node × Node :=
  -- Shift entries on the right
  let right := forDown 0 rfill (fun i r => movepair geo r r (i - 1 + noEntries) (i - 1)) right
  -- Move some entries to the right
  let right := forUp 0 noEntries (fun i r => movepair geo r left i (lfill - noEntries + i)) right
  -- Set parent key
  let parent := setkey geo parent (bkey geo left (lfill - noEntries - 1)) lpos
  let left := forUp (lfill - noEntries) noEntries (fun i l => clearpair geo l i) left
  (left, right, parent)

/-- `steal_r`: the left node, the right node and the parent. -/
def stealR (geo : Geo) (left : Node) (lfill : Nat) (right : Node) (rfill : Nat) (parent : Node)
    (lpos noEntries : Nat) : Node × Node × Node :=
  -- Move some entries to the left
  let left := forUp 0 noEntries (fun i l => movepair geo l right (lfill + i) i) left
  -- Set parent key
  let parent := setkey geo parent (bkey geo right (noEntries - 1)) lpos
  -- Shift entries on the right
  let right := forUp noEntries (rfill - noEntries)
    (fun i r => movepair geo r r (i - noEntries) i) right
  let right := forUp (rfill - noEntries) noEntries (fun i r => clearpair geo r i) right
  (left, right, parent)

end Logfs.Btree
