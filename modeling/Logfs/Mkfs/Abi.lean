import Logfs.Lib.Bytes

/-!
# On-medium structures

The constants and the structures of `logfs_abi.h` that mkfs writes, each as the
bytes of the packed C structure.  Checksums go through `logfs_crc32`, with the
`crc32` of zlib as a parameter.
-/

namespace Logfs.Mkfs

/-! ## Constants -/

def logfsMagic : Nat := 0x7a3a8e5cb9d5bf67
def blockshift : Nat := 12
def blocksize : Nat := 2 ^ blockshift
/-- `LOGFS_BLOCK_BITS`, `LOGFS_BLOCK_FACTOR`. -/
def blockBits : Nat := 9
def blockFactor : Nat := 512
def i0Blocks : Nat := 16
def indirectIndex : Nat := i0Blocks
def embeddedFields : Nat := i0Blocks + 1
def maxLevels : Nat := 6
def noAreas : Nat := 2 * maxLevels
def journalSegs : Nat := 16
def objectHeadersize : Nat := 0x1c
def segmentHeadersize : Nat := 0x18
def journalHeadersize : Nat := 16
def inoMaster : Nat := 1
def inoRoot : Nat := 2
def inoSegfile : Nat := 3
def reservedInos : Nat := 0x10
def ifCompressed : Nat := 4
/-- `RESERVED` and `BADSEG`. -/
def reserved : Nat := 0xffffffff
def badseg : Nat := 0xffffffff

inductive SegType where
  | super | journal | ostore
deriving DecidableEq, Repr

def SegType.code : SegType → Nat
  | super => 1
  | journal => 2
  | ostore => 3

inductive ObjType where
  | block | inode | dentry
deriving DecidableEq, Repr

def ObjType.code : ObjType → Nat
  | block => 4
  | inode => 5
  | dentry => 6

/-- `obj_len`. -/
def objLen : ObjType → Nat
  | .dentry => 266
  | .inode => 200
  | .block => blocksize

inductive JeType where
  | commit | dynsb | anchor | objAlias
deriving DecidableEq, Repr

def JeType.code : JeType → Nat
  | commit => 0x02
  | dynsb => 0x03
  | anchor => 0x04
  | objAlias => 0x0d

/-! ## Structures -/

/-- `logfs_crc32`: the complement of zlib's `crc32`, as a `__be32`. -/
def logfsCrc32 (crc32 : List UInt8 → Nat) (bs : List UInt8) : List UInt8 :=
  be 4 (2 ^ 32 - 1 - crc32 bs % 2 ^ 32)

/-- `struct logfs_segment_header` behind its checksum. -/
def segmentHeaderBody (type : SegType) (level segno ec gec : Nat) : List UInt8 :=
  be 2 0 ++ be 1 type.code ++ be 1 level ++ be 4 segno ++ be 4 ec ++ be 8 gec

def segmentHeader (crc32 : List UInt8 → Nat) (type : SegType) (level segno ec gec : Nat) :
    List UInt8 :=
  logfsCrc32 crc32 (segmentHeaderBody type level segno ec gec) ++
    segmentHeaderBody type level segno ec gec

/-- `struct logfs_object_header` between its two checksums. -/
def objectHeaderBody (type : ObjType) (ino bix : Nat) : List UInt8 :=
  be 2 (objLen type) ++ be 1 type.code ++ be 1 0 ++ be 8 ino ++ be 8 bix

def objectHeader (crc32 : List UInt8 → Nat) (type : ObjType) (ino bix : Nat)
    (data : List UInt8) : List UInt8 :=
  logfsCrc32 crc32 (objectHeaderBody type ino bix) ++ objectHeaderBody type ino bix ++
    logfsCrc32 crc32 data

/-- `struct logfs_journal_header` and the data behind it. -/
def journalEntry (crc32 : List UInt8 → Nat) (data : List UInt8) (datalen : Nat) (type : JeType)
    (compr : Nat) : List UInt8 :=
  let body := be 2 data.length ++ be 2 datalen ++ be 2 type.code ++ be 1 compr ++
    [0x68, 0x65, 0x61, 0x64, 0x72]
  logfsCrc32 crc32 (body ++ data) ++ body ++ data

/-- `struct logfs_segment_entry`. -/
structure SegEntry where
  ecLevel : Nat
  valid : Nat
deriving DecidableEq, Repr

/-- `ec_level`. -/
def ecLevel (ec level : Nat) : Nat := (ec * 16 + level % 16) % 2 ^ 32

/-- The fields of `struct logfs_disk_inode` that mkfs sets. -/
structure DiskInode where
  mode : Nat
  height : Nat
  flags : Nat
  refcount : Nat
  usedBytes : Nat
  size : Nat
  data : Nat → Nat

/-- `struct logfs_disk_inode`. -/
def DiskInode.bytes (di : DiskInode) : List UInt8 :=
  be 2 di.mode ++ be 1 di.height ++ be 1 0 ++ be 4 di.flags ++ be 4 0 ++ be 4 0 ++
    be 8 0 ++ be 8 0 ++ be 8 0 ++ be 4 di.refcount ++ be 4 0 ++ be 8 di.usedBytes ++
    be 8 di.size ++ (List.range embeddedFields).flatMap fun i => be 8 (di.data i)

/-- An indirect block: `blockFactor` pointers. -/
abbrev Block := Nat → Nat

/-- The pointers of an indirect block, each a `__be64`. -/
def Block.bytes (block : Block) : Buf := fun i => (be 8 (block (i / 8))).getD (i % 8) 0

/-- `struct logfs_je_anchor`. -/
def anchorBytes (size lastIno usedBytes : Nat) (data : Nat → Nat) : List UInt8 :=
  be 8 size ++ be 8 lastIno ++ be 8 usedBytes ++ be 8 0 ++
    (List.range embeddedFields).flatMap fun i => be 8 (data i)

/-- `struct logfs_je_dynsb`. -/
def dynsbBytes (gec usedBytes : Nat) : List UInt8 :=
  be 8 gec ++ be 8 0 ++ be 8 0 ++ be 8 0 ++ be 8 0 ++ be 8 0 ++ be 8 usedBytes ++ be 4 0 ++ be 4 0

/-- `struct logfs_obj_alias`. -/
def aliasBytes (ino bix val childNo : Nat) : List UInt8 :=
  be 8 ino ++ be 8 bix ++ be 8 val ++ be 1 0 ++ be 5 0 ++ be 2 childNo

/-- The fields of `struct logfs_disk_super` that differ between runs. -/
structure DiskSuper where
  filesystemSize : Nat
  segmentShift : Nat
  writeShift : Nat
  badSegReserve : Nat
  journalSeg : Nat → Nat
  superOfs : Nat → Nat

/-- `struct logfs_disk_super` behind `ds_crc`. -/
def DiskSuper.body (ds : DiskSuper) : List UInt8 :=
  be 1 3 ++ be 1 4 ++ be 1 1 ++ be 1 ds.segmentShift ++ be 1 blockshift ++ be 1 ds.writeShift ++
    be 6 0 ++ be 8 ds.filesystemSize ++ be 4 0 ++ be 4 ds.badSegReserve ++
    be 8 0 ++ be 8 0 ++ be 8 0 ++ be 8 0 ++ be 8 0 ++ be 8 0 ++
    (List.range journalSegs).flatMap (fun i => be 4 (ds.journalSeg i)) ++
    be 8 (ds.superOfs 0) ++ be 8 (ds.superOfs 1) ++ List.replicate 64 0

def DiskSuper.bytes (crc32 : List UInt8 → Nat) (ds : DiskSuper) : List UInt8 :=
  segmentHeader crc32 .super 0 0 0 0 ++ be 8 logfsMagic ++ logfsCrc32 crc32 ds.body ++ ds.body

/-! ## Sizes -/

section Sizes

variable {crc32 : List UInt8 → Nat}

theorem flatMap_be_length (w n : Nat) (f : Nat → Nat) :
    ((List.range n).flatMap fun i => be w (f i)).length = n * w := by
  simp [List.length_flatMap]

@[simp] theorem logfsCrc32_length (bs : List UInt8) : (logfsCrc32 crc32 bs).length = 4 :=
  be_length _ _

@[simp] theorem segmentHeader_length (type : SegType) (level segno ec gec : Nat) :
    (segmentHeader crc32 type level segno ec gec).length = segmentHeadersize := by
  simp [segmentHeader, segmentHeaderBody, segmentHeadersize]

@[simp] theorem objectHeaderBody_length (type : ObjType) (ino bix : Nat) :
    (objectHeaderBody type ino bix).length = 20 := by
  simp [objectHeaderBody]

@[simp] theorem objectHeader_length (type : ObjType) (ino bix : Nat) (data : List UInt8) :
    (objectHeader crc32 type ino bix data).length = objectHeadersize := by
  simp [objectHeader, objectHeadersize]

@[simp] theorem journalEntry_length (data : List UInt8) (datalen : Nat) (type : JeType)
    (compr : Nat) :
    (journalEntry crc32 data datalen type compr).length = journalHeadersize + data.length := by
  simp [journalEntry, journalHeadersize]
  omega

theorem DiskInode.bytes_length (di : DiskInode) : di.bytes.length = objLen .inode := by
  simp [DiskInode.bytes, embeddedFields, i0Blocks, objLen]

theorem DiskSuper.body_length (ds : DiskSuper) : ds.body.length = 220 := by
  have hseg := flatMap_be_length 4 journalSegs ds.journalSeg
  unfold DiskSuper.body
  rw [List.length_append, List.length_append, List.length_append, List.length_append, hseg]
  simp only [List.length_append, be_length, List.length_replicate, journalSegs]

theorem DiskSuper.bytes_length (ds : DiskSuper) : (ds.bytes crc32).length = 256 := by
  simp only [DiskSuper.bytes, List.length_append, segmentHeader_length, be_length,
    logfsCrc32_length, ds.body_length, segmentHeadersize]

theorem objLen_le (type : ObjType) : objLen type ≤ blocksize := by
  cases type <;> decide

end Sizes

end Logfs.Mkfs
