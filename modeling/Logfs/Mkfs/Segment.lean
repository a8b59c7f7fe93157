import Logfs.Mkfs.Device

/-!
# The object store of `segment.c`

Segments come from a counter that only goes up.  An area is a segment in memory:
objects are appended to its buffer, and the buffer is written to the device when
no further block fits, or at the end.
-/

namespace Logfs.Mkfs

/-- `get_segment`; every turn takes at least one answer of the device, so `turns` are enough when
there are more of them than answers. -/
def getSegmentLoop (c : Cfg) : Nat → MkfsM Nat
  | 0 => throw .killed
  | turns + 1 => do
    let s ← get
    let segno := s.lastseg
    let ofs := segno * c.segsize
    set { s with lastseg := (segno + 1) % 2 ^ 32 }
    if (segno + 1) % 2 ^ 32 > c.noSegs then throw (.fail "no more free segments")
    else do
      let err ← devErase c ofs c.segsize
      noteEvent (.erase segno (err = 0))
      if err ≠ 0 then do
        -- bad segment
        setEntry c segno ⟨badseg, reserved⟩
        getSegmentLoop c turns
      else do
        noteEvent (.got segno (s.segmentEntry segno))
        pure segno

def getSegment (c : Cfg) : MkfsM Nat := do
  let s ← get
  getSegmentLoop c (s.outcomes.length + 1)

/-- The header `__init_area` puts into the buffer. -/
def areaHeader (c : Cfg) (level segno : Nat) : List UInt8 :=
  segmentHeader c.crc32 .ostore level segno 1 segno

/-- `__init_area`. -/
def initArea' (c : Cfg) (level : Nat) : MkfsM Unit := do
  let segno ← getSegment c
  setArea level ⟨segno, segmentHeadersize, some (poke (fun _ => 0xff) 0 (areaHeader c level segno))⟩
  noteEvent (.opened level segno)

/-- `init_area`. -/
def initArea (c : Cfg) (level : Nat) : MkfsM Unit := do
  let s ← get
  if (s.area level).buf.isSome then pure () else initArea' c level

/-- `finish_area`. -/
def finishArea (c : Cfg) (level : Nat) (final : Bool) : MkfsM Int := do
  let s ← get
  let a := s.area level
  match a.buf with
  | none => throw .wild
  | some buf => do
    let err ← devWrite (.area level a.segno) (a.segno * c.segsize) c.segsize buf
    if err ≠ 0 then pure err
    else do
      let entry : SegEntry := ⟨ecLevel 1 level, (a.usedBytes - segmentHeadersize) % 2 ^ 32⟩
      setEntry c a.segno entry
      noteEvent (.closed level a.segno (s.segmentEntry a.segno) entry)
      if final then pure 0
      else do
        initArea' c level
        pure 0

/-- `find_or_create_inode`. -/
def findOrCreateInode (ino : Nat) : MkfsM Inode := do
  let s ← get
  match s.inoTree.get ino with
  | some inode => pure inode
  | none => do
    set { s with inoTree := s.inoTree.insert ino .zero }
    pure .zero

/-- Assignments through a pointer to the inode. -/
def modifyInode (ino : Nat) (f : Inode → Inode) : MkfsM Unit := modify fun s =>
  match s.inoTree.get ino with
  | some inode => { s with inoTree := s.inoTree.insert ino (f inode) }
  | none => s

/-- `grow_inode` of `segment.c`. -/
def growInode (ino len : Nat) : MkfsM Unit := do
  let _ ← findOrCreateInode ino
  modifyInode ino fun i =>
    { i with di := { i.di with usedBytes := (len + i.di.usedBytes) % 2 ^ 64 } }
  modify fun s => { s with usedBytes := (s.usedBytes + len) % 2 ^ 64 }

/-- `copybuf`. -/
def copybuf (a : Area) (bs : List UInt8) : Area where
  segno := a.segno
  usedBytes := a.usedBytes + bs.length
  buf := a.buf.map fun buf => poke buf a.usedBytes bs

/-- The bytes of an object: its header and its data. -/
def Obj.bytes (c : Cfg) (o : Obj) : List UInt8 :=
  let data := peek o.data 0 (objLen o.type)
  objectHeader c.crc32 o.type o.ino o.bix data ++ data

/-- The area objects of a level and an inode go to. -/
def areaOf (ino level : Nat) : Nat :=
  if ino = inoMaster then (level + maxLevels) % 256 else level

/-- `area->segno * sb->segsize + area->used_bytes`, in 32 bits. -/
def Obj.ofs (c : Cfg) (o : Obj) : Nat := (o.segno * c.segsize + o.used) % 2 ^ 32

/-- `logfs_segment_write`: the offset of the object, or a negative error. -/
def logfsSegmentWrite (c : Cfg) (data : Buf) (type : ObjType) (ino bix level : Nat) :
    MkfsM Int := do
  let l := areaOf ino level
  if ¬ l < noAreas then throw .wild
  else do
    let bytes := peek data 0 (objLen type)
    let oh := objectHeader c.crc32 type ino bix bytes
    initArea c l
    let s ← get
    let err ← if (s.area l).usedBytes + objectHeadersize + blocksize > c.segsize then
        finishArea c l false
      else pure 0
    if err ≠ 0 then pure err
    else do
      let s ← get
      let a := s.area l
      let o : Obj := ⟨l, a.segno, a.usedBytes, type, ino, bix, level, data⟩
      setArea l (copybuf (copybuf a oh) bytes)
      noteEvent (.append o)
      growInode ino (objectHeadersize + objLen type)
      pure (o.ofs c)

/-- The loop of `flush_segments` over the areas from `i` on. -/
def flushAreas (c : Cfg) : Nat → Nat → MkfsM Int
  | 0, _ => pure 0
  | n + 1, i => do
    let s ← get
    let err ← if (s.area i).buf.isSome then finishArea c i true else pure 0
    if err ≠ 0 then pure err else flushAreas c n (i + 1)

/-- `flush_segments`. -/
def flushSegments (c : Cfg) : MkfsM Int := flushAreas c noAreas 0

end Logfs.Mkfs
