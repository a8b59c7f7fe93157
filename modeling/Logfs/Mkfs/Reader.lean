import Logfs.Mkfs.Segfile
import Logfs.Mkfs.Stale
import Logfs.Mkfs.Lookup
import Logfs.Mkfs.Walk

/-!
# Reading the medium

What a reader makes of the bytes of a device, from the format alone: the superblock
says where the journal is, the commit entry of the journal where its other entries
are, the anchor among these where the inodes are, and an inode where the blocks of
its file are.  What has a checksum is accepted only with the right one.

Every structure is read back from the bytes that `mkfs` makes of it.
-/

namespace Logfs.Mkfs

/-! ## Structures -/

/-- The numbers of `w` bytes in `data`. -/
def readWords (w : Nat) (data : List UInt8) : List Nat :=
  (List.range (data.length / w)).map fun k => beNat (peek (padded 0 data) (w * k) w)

def readSuper (data : List UInt8) : DiskSuper :=
  let buf := padded 0 data
  { filesystemSize := beNat (peek buf 48 8)
    segmentShift := beNat (peek buf 39 1)
    writeShift := beNat (peek buf 41 1)
    badSegReserve := beNat (peek buf 60 4)
    journalSeg := fun i => beNat (peek buf (112 + 4 * i) 4)
    superOfs := fun i => beNat (peek buf (176 + 8 * i) 8) }

def readInode (data : List UInt8) : DiskInode :=
  let buf := padded 0 data
  { mode := beNat (peek buf 0 2)
    height := beNat (peek buf 2 1)
    flags := beNat (peek buf 4 4)
    refcount := beNat (peek buf 40 4)
    usedBytes := beNat (peek buf 48 8)
    size := beNat (peek buf 56 8)
    data := fun i => beNat (peek buf (64 + 8 * i) 8) }

/-- The fields of `struct logfs_je_anchor` that differ between runs. -/
structure Anchor where
  usedBytes : Nat
  data : Nat → Nat

def readAnchor (data : List UInt8) : Anchor :=
  let buf := padded 0 data
  { usedBytes := beNat (peek buf 16 8), data := fun i => beNat (peek buf (32 + 8 * i) 8) }

/-- `ds_used_bytes`. -/
def readUsed (data : List UInt8) : Nat := beNat (peek (padded 0 data) 48 8)

/-- The data of an object whose header, with both checksums, is the one for them. -/
def fetchObject (crc32 : List UInt8 → Nat) (dev : Buf) (p : Nat) (type : ObjType) (ino bix : Nat) :
    Option (List UInt8) :=
  let data := peek dev (p + objectHeadersize) (objLen type)
  if peek dev p objectHeadersize = objectHeader crc32 type ino bix data then some data else none

/-- A superblock with the magic number and the right checksum. -/
def superOk (crc32 : List UInt8 → Nat) (dev : Buf) (ofs : Nat) : Bool :=
  peek dev (ofs + 24) 8 = be 8 logfsMagic ∧
    peek dev (ofs + 32) 4 = logfsCrc32 crc32 (peek dev (ofs + 36) 220)

/-! ## Round trips -/

section Words

variable {buf : Buf} {ofs w n i : Nat} {f : Nat → Nat}

/-- Numbers one behind the other. -/
theorem at_words (h : At buf ofs ((List.range n).flatMap fun i => be w (f i))) (hi : i < n) :
    At buf (ofs + w * i) (be w (f i)) := by
  induction n with
  | zero => omega
  | succ n ih =>
    rw [List.range_succ, List.flatMap_append, at_append, flatMap_be_length] at h
    rcases Nat.eq_or_lt_of_le (Nat.lt_succ_iff.1 hi) with rfl | hlt
    · rw [Nat.mul_comm]
      simpa using h.2
    · exact ih h.1 hlt

theorem readWords_flatMap (l : List Nat) (hl : ∀ x ∈ l, x < 256 ^ w) (hw : 0 < w) :
    readWords w (l.flatMap (be w)) = l := by
  have hl' : l = (List.range l.length).map (l.getD · 0) := by
    refine List.ext_getElem (by simp) fun i h1 h2 => ?_
    rw [List.getElem_map, List.getElem_range, List.getD_eq_getElem _ _ h1]
  have hflat : l.flatMap (be w) = (List.range l.length).flatMap fun i => be w (l.getD i 0) := by
    conv_lhs => rw [hl', List.flatMap_map]
  unfold readWords
  rw [hflat, flatMap_be_length, Nat.mul_div_cancel _ hw]
  conv_rhs => rw [hl']
  refine List.map_congr_left fun i hi => ?_
  rw [List.mem_range] at hi
  have hat := at_words (w := w) (f := (l.getD · 0)) (at_padded 0 _) hi
  rw [Nat.zero_add] at hat
  refine hat.beNat_eq (hl _ ?_)
  rw [List.getD_eq_getElem _ _ hi]
  exact List.getElem_mem hi

end Words

/-- A superblock whose fields fit. -/
structure DiskSuper.Fits (ds : DiskSuper) : Prop where
  filesystemSize : ds.filesystemSize < 2 ^ 64
  segmentShift : ds.segmentShift < 2 ^ 8
  writeShift : ds.writeShift < 2 ^ 8
  journalSeg : ∀ i < journalSegs, ds.journalSeg i < 2 ^ 32
  superOfs : ∀ i < 2, ds.superOfs i < 2 ^ 64

/-- The superblock that was read says the same; the reserve for bad segments is a `u32`. -/
structure DiskSuper.Same (ds ds' : DiskSuper) : Prop where
  filesystemSize : ds'.filesystemSize = ds.filesystemSize
  segmentShift : ds'.segmentShift = ds.segmentShift
  writeShift : ds'.writeShift = ds.writeShift
  badSegReserve : ds'.badSegReserve = ds.badSegReserve % 2 ^ 32
  journalSeg : ∀ i < journalSegs, ds'.journalSeg i = ds.journalSeg i
  superOfs : ∀ i < 2, ds'.superOfs i = ds.superOfs i

/-- The inode that was read says the same. -/
structure DiskInode.Same (di di' : DiskInode) : Prop where
  mode : di'.mode = di.mode
  height : di'.height = di.height
  flags : di'.flags = di.flags
  refcount : di'.refcount = di.refcount
  usedBytes : di'.usedBytes = di.usedBytes
  size : di'.size = di.size
  data : ∀ i < embeddedFields, di'.data i = di.data i

/-- An inode whose fields fit. -/
structure DiskInode.Fits (di : DiskInode) : Prop where
  mode : di.mode < 2 ^ 16
  height : di.height < 2 ^ 8
  flags : di.flags < 2 ^ 32
  refcount : di.refcount < 2 ^ 32
  usedBytes : di.usedBytes < 2 ^ 64
  size : di.size < 2 ^ 64
  data : ∀ i < embeddedFields, di.data i < 2 ^ 64

section RoundTrips

variable {crc32 : List UInt8 → Nat} {dev : Buf} {p : Nat}

theorem readSuper_bytes {ds : DiskSuper} (h : ds.Fits) :
    ds.Same (readSuper (ds.bytes crc32)) := by
  have hat := at_padded 0 (ds.bytes crc32)
  unfold readSuper
  generalize padded 0 (ds.bytes crc32) = buf at hat ⊢
  unfold DiskSuper.bytes at hat
  obtain ⟨-, hbody⟩ := at_append.1 hat
  simp only [List.length_append, segmentHeader_length, be_length, logfsCrc32_length,
    segmentHeadersize, Nat.reduceAdd] at hbody
  unfold DiskSuper.body at hbody
  obtain ⟨hbody, -⟩ := at_append.1 hbody
  simp only [at_append, List.append_assoc, be_length, flatMap_be_length, journalSegs,
    Nat.reduceAdd, Nat.reduceMul] at hbody
  obtain ⟨-, -, -, h1, -, h2, -, h3, -, h4, -, -, -, -, -, -, h5, h6, h7⟩ := hbody
  refine ⟨h3.beNat_eq h.filesystemSize, h1.beNat_eq h.segmentShift, h2.beNat_eq h.writeShift, ?_,
    fun i hi => (at_words h5 hi).beNat_eq (h.journalSeg i hi), fun i hi => ?_⟩
  · show beNat (peek buf 60 4) = _
    rw [h4.peek_eq (be_length ..), beNat_be]
    rfl
  · have h0 := h.superOfs i hi
    obtain rfl | rfl : i = 0 ∨ i = 1 := by omega
    · exact h6.beNat_eq h0
    · exact h7.beNat_eq h0

theorem readInode_bytes {di : DiskInode} (h : di.Fits) : di.Same (readInode di.bytes) := by
  have hat := at_padded 0 di.bytes
  unfold readInode
  generalize padded 0 di.bytes = buf at hat ⊢
  simp only [DiskInode.bytes, at_append, List.append_assoc, be_length, Nat.reduceAdd] at hat
  obtain ⟨h1, h2, -, h3, -, -, -, -, -, h4, -, h5, h6, h7⟩ := hat
  exact ⟨h1.beNat_eq h.mode, h2.beNat_eq h.height, h3.beNat_eq h.flags, h4.beNat_eq h.refcount,
    h5.beNat_eq h.usedBytes, h6.beNat_eq h.size, fun i hi =>
      (at_words h7 hi).beNat_eq (h.data i hi)⟩

theorem readAnchor_bytes (size lastIno : Nat) {usedBytes : Nat} {data : Nat → Nat}
    (hused : usedBytes < 2 ^ 64) (hdata : ∀ i < embeddedFields, data i < 2 ^ 64) :
    (readAnchor (anchorBytes size lastIno usedBytes data)).usedBytes = usedBytes ∧
      ∀ i < embeddedFields,
        (readAnchor (anchorBytes size lastIno usedBytes data)).data i = data i := by
  have hat := at_padded 0 (anchorBytes size lastIno usedBytes data)
  unfold readAnchor
  generalize padded 0 (anchorBytes size lastIno usedBytes data) = buf at hat ⊢
  simp only [anchorBytes, at_append, List.append_assoc, be_length, Nat.reduceAdd] at hat
  obtain ⟨-, -, h1, -, h2⟩ := hat
  exact ⟨h1.beNat_eq hused, fun i hi => (at_words h2 hi).beNat_eq (hdata i hi)⟩

theorem readUsed_bytes {gec usedBytes : Nat} (h : usedBytes < 2 ^ 64) :
    readUsed (dynsbBytes gec usedBytes) = usedBytes := by
  have hat := at_padded 0 (dynsbBytes gec usedBytes)
  unfold readUsed
  generalize padded 0 (dynsbBytes gec usedBytes) = buf at hat ⊢
  simp only [dynsbBytes, at_append, List.append_assoc, be_length, Nat.reduceAdd] at hat
  obtain ⟨-, -, -, -, -, -, h1, -⟩ := hat
  exact h1.beNat_eq h

/-- An object is read back from where it is. -/
theorem fetchObject_eq {c : Cfg} {ca : Call} (h : At dev p (ca.bytes c)) :
    fetchObject c.crc32 dev p ca.type ca.ino ca.bix = some (peek ca.data 0 (objLen ca.type)) := by
  obtain ⟨hheader, hdata⟩ := at_append.1 h
  rw [objectHeader_length] at hdata
  have hd := hdata.peek_eq (peek_length ..)
  unfold fetchObject
  rw [hd, hheader.peek_eq (objectHeader_length ..), if_pos rfl]

theorem superOk_iff {c : Cfg} {ofs : Nat} : superOk c.crc32 dev ofs = true ↔ SuperAt c dev ofs :=
  decide_eq_true_iff

end RoundTrips

end Logfs.Mkfs
