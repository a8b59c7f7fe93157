import Logfs.Mkfs.Journal

/-!
# The run of `mkfs()`

The superblocks are placed, the journal segments taken, the segment file and the
root directory written; then the areas, the journal and, last, the two
superblocks go to the device.
-/

namespace Logfs.Mkfs

/-- `segment_entry[segno]` becomes that of a superblock or a journal segment. -/
def reserveEntry (c : Cfg) (segno : Nat) : MkfsM Unit :=
  setEntry c segno ⟨ecLevel 1 0, reserved⟩

/-- The 1st superblock at the beginning, in both `prepare_sb`. -/
def prepareFirst (c : Cfg) : MkfsM Unit := do
  let segno ← getSegment c
  reserveEntry c segno
  modify fun s => { s with sbOfs1 := segno * c.segsize }

/-- The loop of `mtd_prepare_sb` from the top of the device, which returns `segno` after it:
`n` is the number of turns left. -/
def mtdPrepareLoop (c : Cfg) : Nat → Nat → MkfsM Nat
  | 0, segno => pure segno
  | n + 1, segno => do
    let err ← mtdErase (segno * c.segsize) c.segsize
    noteEvent (.scan segno (err = 0))
    if err ≠ 0 then mtdPrepareLoop c n (segno - 1)
    else do
      reserveEntry c segno
      modify fun s => { s with sbOfs2 := (segno + 1) * c.segsize - 0x1000 }
      pure segno

/-- `mtd_prepare_sb`; with less than 64 segments the bound of the loop wraps and there is no
turn. -/
def mtdPrepareSb (c : Cfg) : MkfsM Int := do
  prepareFirst c
  let segno ← mtdPrepareLoop c (if c.noSegs < 64 then 0 else 63) (c.noSegs - 1)
  let s ← get
  if (segno : Int) = (c.noSegs : Int) - 64 ∨ s.sbOfs2 ≤ s.sbOfs1 then pure (- EIO) else pure 0

/-- `bdev_prepare_sb`; the offset wraps when there is one segment. -/
def bdevPrepareSb (c : Cfg) : MkfsM Int := do
  prepareFirst c
  let segno := c.noSegs - 1
  reserveEntry c segno
  modify fun s => { s with sbOfs2 := (segno * c.segsize + (2 ^ 64 - 0x1000)) % 2 ^ 64 }
  pure 0

/-- `dev_ops->prepare_sb`. -/
def prepareSb (c : Cfg) : MkfsM Int :=
  match c.kind with
  | .bdev => bdevPrepareSb c
  | .mtd => mtdPrepareSb c

/-- The loop of `prepare_journal` from `i` on. -/
def prepareJournalLoop (c : Cfg) : Nat → Nat → MkfsM Unit
  | 0, _ => pure ()
  | n + 1, i => do
    let segno ← getSegment c
    if ¬ i < journalSegs then throw .wild
    else do
      modify fun s => { s with journalSeg := Function.update s.journalSeg i segno }
      reserveEntry c segno
      prepareJournalLoop c n (i + 1)

/-- `prepare_journal`. -/
def prepareJournal (c : Cfg) : MkfsM Unit := prepareJournalLoop c c.noJournalSegs 0

/-! ## Files -/

/-- `write_inode`. -/
def writeInode (c : Cfg) (ino : Nat) : MkfsM Int := do
  let inode ← findOrCreateInode ino
  logfsFileWrite c inoMaster ino 0 .inode (padded 0 inode.di.bytes)

/-- The loop of `write_segment_file` from block `ofs` on; `n` is a bound on the turns. -/
def writeSegmentBlocks (c : Cfg) : Nat → Nat → MkfsM Int
  | 0, _ => pure 0
  | n + 1, ofs =>
    if ofs * blocksize < c.noSegs * 8 then do
      let err ← logfsFileWrite c inoSegfile ofs 0 .block (fun _ => 0)
      if err ≠ 0 then pure err else writeSegmentBlocks c n (ofs + 1)
    else pure 0

/-- `write_segment_file`. -/
def writeSegmentFile (c : Cfg) : MkfsM Int := do
  let _ ← findOrCreateInode inoSegfile
  modifyInode inoSegfile fun i =>
    { i with di := { i.di with flags := 0, mode := 0o100000, refcount := 1, size := c.noSegs * 8 } }
  let err ← writeSegmentBlocks c (c.noSegs * 8 / blocksize + 1) 0
  if err ≠ 0 then pure err
  else do
    let err ← logfsFileFlush c inoSegfile
    if err ≠ 0 then pure err else writeInode c inoSegfile

/-- `write_rootdir`. -/
def writeRootdir (c : Cfg) : MkfsM Int := do
  let _ ← findOrCreateInode inoRoot
  modifyInode inoRoot fun i =>
    { i with di := { i.di with flags := if c.compressRootdir then ifCompressed else 0,
                               mode := 0o040755, refcount := 1 } }
  writeInode c inoRoot

/-! ## Superblocks -/

/-- The superblock of `make_super`. -/
def diskSuper (c : Cfg) (s : Sb) : DiskSuper where
  filesystemSize := c.noSegs * c.segsize
  segmentShift := c.segshift
  writeShift := c.writeshift
  badSegReserve := max c.badSegReserve c.noJournalSegs
  journalSeg i := if i < c.noJournalSegs then s.journalSeg i else 0
  superOfs i := if i = 0 then s.sbOfs1 else s.sbOfs2

/-- `secsize`: the bytes `make_super` writes for each copy. -/
def Cfg.secsize (c : Cfg) : Nat := align 256 c.writesize

/-- `make_super`. -/
def makeSuper (c : Cfg) : MkfsM Int := do
  let s ← get
  let sector := padded 0 ((diskSuper c s).bytes c.crc32)
  let ret ← devWrite (.super 0) s.sbOfs1 c.secsize sector
  if ret = 0 then devWrite (.super 1) s.sbOfs2 c.secsize sector else pure ret

/-! ## The whole run -/

/-- `if (ret) fail(msg)`. -/
def orFail (msg : String) (m : MkfsM Int) : MkfsM Unit := do
  let ret ← m
  if ret ≠ 0 then throw (.fail msg) else pure ()

/-- `mkfs()` up to the return of `prepare_sb`. -/
def mkfsPrepare (c : Cfg) : MkfsM Unit := do
  orFail "could not erase two superblocks" (prepareSb c)
  noteEvent .prepared

/-- `mkfs()` from there up to the call of `make_journal`. -/
def mkfsStore (c : Cfg) : MkfsM Unit := do
  prepareJournal c
  orFail "could not write segment file" (writeSegmentFile c)
  orFail "could not create root inode" (writeRootdir c)
  orFail "could not write segments" (flushSegments c)

/-- `mkfs()` on an accepted geometry. -/
def mkfs (c : Cfg) : MkfsM Unit := do
  mkfsPrepare c
  mkfsStore c
  orFail "could not create journal" (makeJournal c)
  orFail "could not create superblock" (makeSuper c)

/-! ## The checks -/

/-- What `main` and `open_device` hand to `mkfs()`: the device, and the options as given. -/
structure Request where
  kind : Kind
  fssize : Nat
  segshift : Nat
  writeshift : Nat
  userSegshift : Option Nat
  userBlockshift : Option Nat
  userWriteshift : Option Nat
  noJournalSegs : Nat
  badSegReserve : Nat
  compressRootdir : Bool
  crc32 : List UInt8 → Nat
  deflate : List UInt8 → Nat → Bool × List UInt8
  deflate_le : ∀ inp n, (deflate inp n).2.length ≤ n

/-- An option, stored in a `u8`; without it the default stays. -/
def userShift (user : Option Nat) (default : Nat) : Nat := (user.map (· % 256)).getD default

/-- The checks at the start of `mkfs()`. -/
def Request.check (r : Request) : Except String Cfg :=
  let segshift := userShift r.userSegshift r.segshift
  let blockshift' := userShift r.userBlockshift blockshift
  let writeshift := userShift r.userWriteshift r.writeshift
  if h1 : segshift > 30 then .error "segment shift too large (max 30)"
  else if h2 : segshift ≤ blockshift' then
    .error "segment shift must be larger than block shift"
  else if h3 : blockshift' ≠ blockshift then .error "blockshift must be 12"
  else if h4 : writeshift > 16 then .error "writeshift too large (max 16)"
  else if h5 : segshift < writeshift then
    .error "segment shift must be larger than write shift"
  else .ok
    { kind := r.kind
      segshift := segshift
      writeshift := writeshift
      noSegs := r.fssize / 2 ^ segshift % 2 ^ 32
      noJournalSegs := r.noJournalSegs
      badSegReserve := r.badSegReserve
      compressRootdir := r.compressRootdir
      crc32 := r.crc32
      deflate := r.deflate
      segshift_gt := by rw [← not_not.1 h3]; exact not_le.1 h2
      segshift_le := not_lt.1 h1
      writeshift_le := not_lt.1 h4
      writeshift_le_segshift := not_lt.1 h5
      noSegs_lt := Nat.mod_lt _ (by decide)
      deflate_le := r.deflate_le }

/-- A request is accepted when the shifts that come out of it are in their bounds, and then it is
the device and these shifts that `mkfs()` works with. -/
theorem Request.check_eq_ok_iff (r : Request) :
    (∃ c, r.check = .ok c) ↔ userShift r.userBlockshift blockshift = blockshift ∧
      blockshift < userShift r.userSegshift r.segshift ∧
      userShift r.userSegshift r.segshift ≤ 30 ∧
      userShift r.userWriteshift r.writeshift ≤ 16 ∧
      userShift r.userWriteshift r.writeshift ≤ userShift r.userSegshift r.segshift := by
  unfold Request.check
  dsimp only
  constructor
  · rintro ⟨c, hc⟩
    split_ifs at hc with h1 h2 h3 h4 h5
    exact ⟨not_not.1 h3, by omega, by omega, by omega, by omega⟩
  · rintro ⟨hblock, hgt, hle, hwrite, hfit⟩
    rw [dif_neg (by omega), dif_neg (by omega), dif_neg (not_not.2 hblock), dif_neg (by omega),
      dif_neg (by omega)]
    exact ⟨_, rfl⟩

/-- The configurations are those that the checks accept. -/
theorem Request.exists_check_eq (c : Cfg) : ∃ r : Request, r.check = .ok c := by
  have hgt := c.segshift_gt
  have hle := c.segshift_le
  have hwrite := c.writeshift_le
  have hfit := c.writeshift_le_segshift
  have hsegs : c.noSegs * 2 ^ c.segshift / 2 ^ c.segshift % 2 ^ 32 = c.noSegs := by
    rw [Nat.mul_div_cancel _ (Nat.pow_pos (by decide)), Nat.mod_eq_of_lt c.noSegs_lt]
  use ⟨c.kind, c.noSegs * 2 ^ c.segshift, c.segshift, c.writeshift, none, none, none,
    c.noJournalSegs, c.badSegReserve, c.compressRootdir, c.crc32, c.deflate, c.deflate_le⟩
  unfold Request.check userShift
  dsimp only [Option.map_none, Option.getD_none]
  rw [dif_neg (by omega), dif_neg (by omega), dif_neg (by omega), dif_neg (by omega),
    dif_neg (by omega)]
  simp only [hsegs]

/-! ## Small devices

A checksum and a compressor that are simple enough to run. -/

/-- The sum of the bytes. -/
def byteSum (bs : List UInt8) : Nat := (bs.map UInt8.toNat).sum

/-- The input without the zeros at its end, behind its length. -/
def stripZeros (inp : List UInt8) (outlen : Nat) : Bool × List UInt8 :=
  let out := be 2 inp.length ++ (inp.reverse.dropWhile (· = 0)).reverse
  (inp.length < 2 ^ 16 ∧ out.length ≤ outlen, out.take outlen)

/-- The input again. -/
def restoreZeros (out : List UInt8) : List UInt8 :=
  let body := out.drop 2
  body ++ List.replicate (beNat (out.take 2) - body.length) 0

theorem restoreZeros_stripZeros (inp : List UInt8) (n : Nat) (h : (stripZeros inp n).1 = true) :
    restoreZeros (stripZeros inp n).2 = inp := by
  simp only [stripZeros, decide_eq_true_eq] at h ⊢
  obtain ⟨hlen, hfit⟩ := h
  rw [List.take_of_length_le hfit]
  unfold restoreZeros
  set body := (inp.reverse.dropWhile (· = 0)).reverse with hbody
  rw [List.drop_left' (be_length 2 _), List.take_left' (be_length 2 _), beNat_be_of_lt hlen]
  -- what was dropped at the end are zeros
  have hsplit : inp = body ++ (inp.reverse.takeWhile (· = 0)).reverse := by
    rw [hbody, ← List.reverse_append, List.takeWhile_append_dropWhile, List.reverse_reverse]
  have hzero : (inp.reverse.takeWhile (· = 0)).reverse =
      List.replicate (inp.length - body.length) 0 := by
    rw [List.eq_replicate_iff]
    refine ⟨?_, fun b hb => ?_⟩
    · have := congrArg List.length hsplit
      rw [List.length_append] at this
      omega
    · have hall := List.all_takeWhile (p := (· = 0)) (l := inp.reverse)
      simpa using List.all_eq_true.1 hall b (List.mem_reverse.1 hb)
  show body ++ List.replicate (inp.length - body.length) 0 = inp
  rw [← hzero, ← hsplit]

/-! The sizes of the devices below. -/

theorem smallest_gt : 12 < 13 := by decide

theorem smallest_le : 13 ≤ 30 := by decide

theorem sixtyFour_lt : 64 < 2 ^ 32 := by decide

/-- A device with `noSegs` segments and one journal segment. -/
def sampleCfg (kind : Kind) (segshift noSegs : Nat) (h1 : 12 < segshift) (h2 : segshift ≤ 30)
    (h3 : noSegs < 2 ^ 32) : Cfg where
  kind := kind
  segshift := segshift
  writeshift := 0
  noSegs := noSegs
  noJournalSegs := 1
  badSegReserve := 0
  compressRootdir := false
  crc32 := byteSum
  deflate := stripZeros
  segshift_gt := h1
  segshift_le := h2
  writeshift_le := by decide
  writeshift_le_segshift := Nat.zero_le _
  noSegs_lt := h3
  deflate_le _ _ := by simp [stripZeros]

/-- The state a run ends in, however it ends. -/
def after {α : Type} (m : MkfsM α) (s : Sb) : Sb :=
  match m s with
  | .ok _ s' => s'
  | .error _ s' => s'

/-- The run returns. -/
def returns {α : Type} (m : MkfsM α) (s : Sb) : Bool :=
  match m s with
  | .ok _ _ => true
  | .error _ _ => false

theorem after_of_wp {α : Type} {m : MkfsM α} {s : Sb} {P : Sb → Prop}
    (h : Wp m (fun _ s' => P s') (fun _ s' => P s') s) : P (after m s) := by
  unfold Wp at h
  unfold after
  cases hm : m s with
  | ok a s' => rw [hm] at h; exact h
  | error e s' => rw [hm] at h; exact h

theorem ok_of_returns {α : Type} {m : MkfsM α} {s : Sb} (h : returns m s = true) :
    ∃ a, m s = .ok a (after m s) := by
  unfold returns at h
  unfold after
  cases hm : m s with
  | ok a s' => exact ⟨a, rfl⟩
  | error e s' => rw [hm] at h; cases h

/-- The run returns zero. -/
def returnsZero (m : MkfsM Int) (s : Sb) : Bool :=
  match m s with
  | .ok ret _ => ret = 0
  | .error _ _ => false

theorem ok_of_returnsZero {m : MkfsM Int} {s : Sb} (h : returnsZero m s = true) :
    m s = .ok 0 (after m s) := by
  unfold returnsZero at h
  unfold after
  cases hm : m s with
  | ok ret s' =>
    rw [hm] at h
    rw [of_decide_eq_true h]
  | error e s' => rw [hm] at h; cases h

end Logfs.Mkfs
