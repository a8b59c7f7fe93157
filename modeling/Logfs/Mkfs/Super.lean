import Logfs.Lib.OrdMap
import Logfs.Lib.Wp
import Logfs.Mkfs.Abi

/-!
# The state of a run of mkfs

`Cfg` is what a run reads and never changes: the geometry `mkfs()` has accepted,
the command line and zlib.  `Sb` is `struct super_block` with everything behind
it, the device, and a history of the run that the code never reads.  The device
is only ever written to, so it is kept as the list of the writes that reached
it; `content` is what they make of the bytes that were there before.
-/

namespace Logfs.Mkfs

/-- `bdev_ops` or `mtd_ops`. -/
inductive Kind where
  | bdev | mtd
deriving DecidableEq, Repr

/-- A geometry that passes the checks of `mkfs()`, the options, and zlib: its `crc32`, and
`deflate` with the space for its output, which returns whether the stream ended and what it wrote. -/
structure Cfg where
  kind : Kind
  segshift : Nat
  writeshift : Nat
  noSegs : Nat
  noJournalSegs : Nat
  badSegReserve : Nat
  compressRootdir : Bool
  crc32 : List UInt8 → Nat
  deflate : List UInt8 → Nat → Bool × List UInt8
  segshift_gt : blockshift < segshift
  segshift_le : segshift ≤ 30
  writeshift_le : writeshift ≤ 16
  writeshift_le_segshift : writeshift ≤ segshift
  noSegs_lt : noSegs < 2 ^ 32
  deflate_le : ∀ inp n, (deflate inp n).2.length ≤ n

def Cfg.segsize (c : Cfg) : Nat := 2 ^ c.segshift
def Cfg.writesize (c : Cfg) : Nat := 2 ^ c.writeshift

/-- How a run can end other than by returning from `mkfs()`. -/
inductive Stop where
  /-- `fail(msg)`. -/
  | fail (msg : String)
  /-- A failed `BUG_ON`. -/
  | bug
  /-- The run is cut off at an operation of the device. -/
  | killed
  /-- An access outside an array, or an undefined shift. -/
  | wild
deriving DecidableEq, Repr

/-- How the device answers: `pwrite` writes `n` bytes or as many as are left, is interrupted, or
fails.  The `ioctl` of an erase succeeds in the first case only. -/
inductive Outcome where
  | ok (n : Nat)
  | eintr
  | error
deriving DecidableEq, Repr

/-- A range of the device and the bytes written there. -/
structure Blit where
  ofs : Nat
  len : Nat
  bytes : Buf

/-- The bytes of the device after the writes, newest first. -/
def content (init : Buf) : List Blit → Buf
  | [] => init
  | b :: bs => fun x =>
    if b.ofs ≤ x ∧ x < b.ofs + b.len then b.bytes (x - b.ofs) else content init bs x

/-- `struct logfs_area`; `buf` is `none` for `NULL`. -/
structure Area where
  segno : Nat
  usedBytes : Nat
  buf : Option Buf

/-- `struct inode`. -/
structure Inode where
  di : DiskInode
  blockTree : Nat → OrdMap Nat Block

/-- A call of `logfs_segment_write`, with the area, the segment and the place in it the object
went to. -/
structure Obj where
  area : Nat
  segno : Nat
  used : Nat
  type : ObjType
  ino : Nat
  bix : Nat
  level : Nat
  data : Buf

/-- What a call of `dev_ops->write` is for. -/
inductive Target where
  | area (level segno : Nat)
  | journal
  | super (copy : Nat)
deriving DecidableEq, Repr

/-- A call of `dev_ops->write`. -/
structure DevWrite where
  target : Target
  ofs : Nat
  size : Nat
  buf : Buf

inductive Event where
  /-- A turn of `get_segment` has erased a segment, or has failed to. -/
  | erase (segno : Nat) (ok : Bool)
  /-- So has a turn of the scan of `mtd_prepare_sb`. -/
  | scan (segno : Nat) (ok : Bool)
  /-- `get_segment` returns a segment, which has this entry. -/
  | got (segno : Nat) (entry : SegEntry)
  /-- `__init_area` has put a segment into an area. -/
  | opened (level segno : Nat)
  | append (o : Obj)
  | issue (w : DevWrite)
  | done (w : DevWrite) (ok : Bool)
  /-- `finish_area` has set the entry of the segment of an area. -/
  | closed (level segno : Nat) (old new : SegEntry)
  /-- `prepare_sb` has returned. -/
  | prepared

/-- `struct super_block`, the device with its answers to come, and the history, newest first. -/
structure Sb where
  usedBytes : Nat
  lastseg : Nat
  journalSeg : Nat → Nat
  area : Nat → Area
  segmentEntry : Nat → SegEntry
  sbOfs1 : Nat
  sbOfs2 : Nat
  inoTree : OrdMap Nat Inode
  jeArray : List Nat
  outcomes : List Outcome
  blits : List Blit
  trace : List Event

abbrev MkfsM := EStateM Stop Sb

/-- The bytes of the device. -/
def Sb.content (s : Sb) (init : Buf) : Buf := Mkfs.content init s.blits

/-- `zalloc(sizeof(*sb))`, with `segment_entry` allocated. -/
def Sb.zero (outcomes : List Outcome) : Sb where
  usedBytes := 0
  lastseg := 0
  journalSeg := fun _ => 0
  area := fun _ => ⟨0, 0, none⟩
  segmentEntry := fun _ => ⟨0, 0⟩
  sbOfs1 := 0
  sbOfs2 := 0
  inoTree := .empty
  jeArray := []
  outcomes := outcomes
  blits := []
  trace := []

/-- `zalloc(sizeof(*inode) + sb->blocksize)`. -/
def Inode.zero : Inode where
  di := ⟨0, 0, 0, 0, 0, 0, fun _ => 0⟩
  blockTree := fun _ => .empty

def noteEvent (e : Event) : MkfsM Unit := modify fun s => { s with trace := e :: s.trace }

/-- `sb->segment_entry[segno] = entry`. -/
def setEntry (c : Cfg) (segno : Nat) (entry : SegEntry) : MkfsM Unit := do
  if segno < c.noSegs then
    modify fun s => { s with segmentEntry := Function.update s.segmentEntry segno entry }
  else throw .wild

def setArea (level : Nat) (a : Area) : MkfsM Unit :=
  modify fun s => { s with area := Function.update s.area level a }

/-! ## Geometry -/

namespace Cfg

variable (c : Cfg)

theorem segsize_pos : 0 < c.segsize := Nat.two_pow_pos _

/-- A segment holds two blocks. -/
theorem two_blocks_le : 8192 ≤ c.segsize := by
  have h : blockshift + 1 ≤ c.segshift := c.segshift_gt
  calc 8192 = 2 ^ (blockshift + 1) := by decide
    _ ≤ c.segsize := Nat.pow_le_pow_right (by decide) h

theorem segsize_le : c.segsize ≤ 2 ^ 30 := Nat.pow_le_pow_right (by decide) c.segshift_le

/-- The segments tile four gigabytes. -/
theorem segsize_dvd : c.segsize ∣ 2 ^ 32 :=
  Nat.pow_dvd_pow 2 (le_trans c.segshift_le (by decide))

theorem segsize_mod : c.segsize % 8192 = 0 := by
  have h : blockshift + 1 ≤ c.segshift := c.segshift_gt
  exact Nat.mod_eq_zero_of_dvd (Nat.pow_dvd_pow 2 h)

end Cfg

/-! ## The device -/

section Content

variable {init : Buf} {b : Blit} {bs : List Blit} {x : Nat}

theorem content_cons_of_mem (h : b.ofs ≤ x) (hx : x < b.ofs + b.len) :
    content init (b :: bs) x = b.bytes (x - b.ofs) := if_pos ⟨h, hx⟩

theorem content_cons_of_not_mem (h : ¬ (b.ofs ≤ x ∧ x < b.ofs + b.len)) :
    content init (b :: bs) x = content init bs x := if_neg h

end Content

/-! ## Runs -/

section Rules

variable {Q : Unit → Sb → Prop} {E : Stop → Sb → Prop} {s : Sb} {c : Cfg}

@[simp] theorem wp_note (e : Event) :
    Wp (noteEvent e) Q E s ↔ Q () { s with trace := e :: s.trace } := Iff.rfl

@[simp] theorem wp_setArea (level : Nat) (a : Area) :
    Wp (setArea level a) Q E s ↔ Q () { s with area := Function.update s.area level a } := Iff.rfl

theorem wp_setEntry {segno : Nat} {entry : SegEntry}
    (hQ : segno < c.noSegs →
      Q () { s with segmentEntry := Function.update s.segmentEntry segno entry })
    (hE : E .wild s) : Wp (setEntry c segno entry) Q E s := by
  unfold setEntry
  rw [wp_ite]
  exact ⟨hQ, fun _ => hE⟩

end Rules

end Logfs.Mkfs
