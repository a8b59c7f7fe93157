import Logfs.Mkfs.Segment

/-!
# Files, as `readwrite.c` writes them

A block goes to the object store, and its offset into the inode or into the
indirect block above it.  Indirect blocks are kept in one tree for each level
until `logfs_file_flush` writes them, level after level.
-/

namespace Logfs.Mkfs

/-- `bixmask`; from level four on the shift of an `int` is undefined. -/
def bixmask (level : Nat) : Nat := if level = 0 then 0 else 2 ^ (blockBits * level) - 1

/-- `get_bits`. -/
def getBits (bix level : Nat) : Nat := bix / 2 ^ (blockBits * level) % 2 ^ blockBits

/-- `maxbix`. -/
def maxbix (height : Nat) : Nat := 2 ^ (blockBits * height)

/-- The turns of `grow_inode`: `while (bix > maxbix(height)) height++`. -/
def growHeight (bix : Nat) : Nat → Nat → Nat
  | 0, height => height
  | turns + 1, height => if bix > maxbix height then growHeight bix turns (height + 1) else height

/-- `grow_inode` of `readwrite.c`; eight turns are enough for 64 bits. -/
def growInodeHeight (inode : Inode) (bix level : Nat) : Inode :=
  if level ≠ 0 then inode
  else { inode with di := { inode.di with height := growHeight bix 8 inode.di.height } }

def setData (inode : Inode) (i ofs : Nat) : Inode :=
  { inode with di := { inode.di with data := Function.update inode.di.data i ofs } }

def setTree (inode : Inode) (level : Nat) (tree : OrdMap Nat Block) : Inode :=
  { inode with blockTree := Function.update inode.blockTree level tree }

/-- `find_or_create_block`, on the inode. -/
def findOrCreateBlock (inode : Inode) (bix level : Nat) : Inode :=
  match (inode.blockTree level).get bix with
  | some _ => inode
  | none => setTree inode level ((inode.blockTree level).insert bix fun _ => 0)

/-- `iblock[slot] = cpu_to_be64(ofs)`. -/
def setSlot (inode : Inode) (bix level slot ofs : Nat) : Inode :=
  match (inode.blockTree level).get bix with
  | some block =>
    setTree inode level ((inode.blockTree level).insert bix (Function.update block slot ofs))
  | none => inode

/-- `write_direct`. -/
def writeDirect (c : Cfg) (ino bix : Nat) (type : ObjType) (buf : Buf) : MkfsM Int := do
  let ofs ← logfsSegmentWrite c buf type ino bix 0
  if ofs < 0 then pure ofs
  else do
    modifyInode ino fun i => setData i bix ofs.toNat
    pure 0

/-- `write_loop`. -/
def writeLoop (c : Cfg) (ino bix level : Nat) (type : ObjType) (buf : Buf) : MkfsM Int := do
  if ¬ level + 1 < 4 then throw .wild
  else do
    let parent := bix ||| bixmask (level + 1)
    modifyInode ino fun i => findOrCreateBlock i parent (level + 1)
    let ofs ← logfsSegmentWrite c buf type ino bix level
    if ofs < 0 then pure ofs
    else do
      modifyInode ino fun i => setSlot i parent (level + 1) (getBits bix level) ofs.toNat
      pure 0

/-- `logfs_file_write`. -/
def logfsFileWrite (c : Cfg) (ino bix level : Nat) (type : ObjType) (buf : Buf) : MkfsM Int := do
  let _ ← findOrCreateInode ino
  if level = 0 ∧ bix < i0Blocks then writeDirect c ino bix type buf
  else do
    modifyInode ino fun i => growInodeHeight i bix level
    writeLoop c ino bix level type buf

/-- `btree_last64` of the tree of a level, and `btree_remove64` of that key. -/
def takeLast (ino level : Nat) : MkfsM (Option (Nat × Block)) := do
  let inode ← findOrCreateInode ino
  let tree := inode.blockTree level
  let bix := (tree.last.map Prod.fst).getD 0
  match tree.get bix with
  | none => pure none
  | some block => do
    modifyInode ino fun i => setTree i level ((i.blockTree level).erase bix)
    pure (some (bix, block))

/-- The inner loop of `logfs_file_flush`: `n` turns are enough for `n` blocks. -/
def flushLevel (c : Cfg) (ino level : Nat) : Nat → MkfsM Int
  | 0 => pure 0
  | n + 1 => do
    match ← takeLast ino level with
    | none => pure 0
    | some (bix, block) => do
      let err ← logfsFileWrite c ino bix level .block block.bytes
      if err ≠ 0 then pure err else flushLevel c ino level n

/-- The outer loop: `n` levels from `level` on. -/
def flushLevels (c : Cfg) (ino : Nat) : Nat → Nat → MkfsM Int
  | 0, _ => pure 0
  | n + 1, level => do
    let inode ← findOrCreateInode ino
    let err ← flushLevel c ino level (inode.blockTree level).entries.length
    if err ≠ 0 then pure err else flushLevels c ino n (level + 1)

/-- `logfs_file_flush`. -/
def logfsFileFlush (c : Cfg) (ino : Nat) : MkfsM Int := do
  let inode ← findOrCreateInode ino
  let height := inode.di.height
  if height = 0 then pure 0
  else do
    let err ← flushLevels c ino (height - 1) 1
    if err ≠ 0 then pure err
    else do
      match ← takeLast ino height with
      | none => throw .bug
      | some (bix, block) => do
        let ofs ← logfsSegmentWrite c block.bytes .block ino bix height
        if ofs < 0 then pure ofs
        else do
          modifyInode ino fun i => setData i indirectIndex ofs.toNat
          pure 0

end Logfs.Mkfs
