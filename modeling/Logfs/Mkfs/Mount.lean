import Logfs.Mkfs.Finished
import Logfs.Mkfs.Reader

/-!
# A reader of the whole device

The reader is given the offset of a superblock, and knows nothing of the run.
Everything it asks for is what the run had in memory at the end: the superblock,
the bytes used, the inodes, and the table of the segments with the aliases laid
over the blocks of the segment file.
-/

namespace Logfs.Mkfs

/-! ## The reader -/

instance (crc32 : List UInt8 → Nat) (j : Buf) (h : JournalHeader) : Decidable (h.Valid crc32 j) :=
  inferInstanceAs (Decidable (_ = _))

section Reader

variable (crc32 : List UInt8 → Nat) (inflate : List UInt8 → List UInt8) (dev : Buf)

/-- The data of the journal entry at `ofs`, if it is one of this type with the right checksum. -/
def entryAt (type : JeType) (ofs : Nat) : Option (List UInt8) :=
  let h := readHeader dev ofs
  if h.type = type.code ∧ h.Valid crc32 dev then some (h.decode inflate dev) else none

/-- The data of the first such entry at one of these offsets. -/
def findEntry (type : JeType) (offs : List Nat) : Option (List UInt8) :=
  offs.findSome? (entryAt crc32 inflate dev type)

/-- What a reader knows of a file system. -/
structure View where
  super : DiskSuper
  usedBytes : Nat
  anchor : Anchor
  aliases : List Alias

/-- The journal is walked to its commit entry, and this says where the others are. -/
def mount (ofs : Nat) : Option View :=
  if superOk crc32 dev ofs then do
    let ds := readSuper (peek dev ofs 256)
    let segsize := 2 ^ ds.segmentShift
    let base := ds.journalSeg 0 * segsize
    let met := walk (fun i => dev (base + i)) (segsize / 16) 32
    let commit ← findEntry crc32 inflate dev .commit (met.map (base + ·.pos))
    let offs := readWords 8 commit
    let anchor ← findEntry crc32 inflate dev .anchor offs
    let dynsb ← findEntry crc32 inflate dev .dynsb offs
    let objAlias ← findEntry crc32 inflate dev .objAlias offs
    pure ⟨ds, readUsed dynsb, readAnchor anchor, readAliases objAlias⟩
  else none

/-- One of the first inodes, to which the anchor points. -/
def View.inode (v : View) (ino : Nat) : Option DiskInode :=
  if v.anchor.data ino = 0 then none
  else (fetchObject crc32 dev (v.anchor.data ino) .inode inoMaster ino).map readInode

/-- The blocks of a file; a hole reads as zeros. -/
def blocksOf (ino : Nat) (di : DiskInode) : BlockFile := fun bix =>
  if di.size ≤ bix * blocksize then none
  else if resolve dev di bix = 0 then some fun _ => 0
  else (fetchObject crc32 dev (resolve dev di bix) .block ino bix).map (padded 0)

/-- Entry `i` of the segment table. -/
def View.segmentEntry (v : View) (i : Nat) : Option SegEntry := do
  let di ← v.inode crc32 dev inoSegfile
  let aliases := v.aliases.filter fun a => a.ino = inoSegfile ∧ a.level = 0
  readEntry (aliases.foldl overlay (blocksOf crc32 dev inoSegfile di)) i

end Reader

/-! ## The journal on the device -/

section Shift

variable {crc32 : List UInt8 → Nat} {inflate : List UInt8 → List UInt8} {j j' dev : Buf}
  {base n turns pos len : Nat} {h : JournalHeader} {type : JeType}

theorem mem_walk (hmem : h ∈ walk j turns pos) : h = readHeader j h.pos := by
  induction turns generalizing pos with
  | zero => cases hmem
  | succ turns ih =>
    unfold walk at hmem
    dsimp only at hmem
    split_ifs at hmem with htype
    · rw [List.mem_singleton.1 hmem]
      rfl
    · rcases List.mem_cons.1 hmem with rfl | hmem
      · rfl
      · exact ih hmem

theorem readHeader_congr (heq : ∀ i < n, j' i = j i) (hpos : pos + journalHeadersize ≤ n) :
    readHeader j' pos = readHeader j pos := by
  simp only [journalHeadersize] at hpos
  unfold readHeader
  rw [peek_congr fun i hi => heq (pos + i) (by omega),
    peek_congr fun i hi => heq (pos + 4 + i) (by omega),
    peek_congr fun i hi => heq (pos + 6 + i) (by omega),
    peek_congr fun i hi => heq (pos + 8 + i) (by omega),
    peek_congr fun i hi => heq (pos + 10 + i) (by omega)]

/-- A walk depends on the headers it meets only. -/
theorem walk_congr (heq : ∀ i < n, j' i = j i)
    (hin : ∀ h ∈ walk j turns pos, h.pos + journalHeadersize ≤ n) :
    walk j' turns pos = walk j turns pos := by
  induction turns generalizing pos with
  | zero => rfl
  | succ turns ih =>
    have hhead : readHeader j' pos = readHeader j pos := by
      refine readHeader_congr heq (hin (readHeader j pos) ?_)
      unfold walk
      dsimp only
      split_ifs <;> exact List.mem_cons_self
    unfold walk at hin ⊢
    dsimp only at hin ⊢
    rw [hhead]
    split_ifs at hin ⊢ with htype
    · rfl
    · rw [ih fun h hmem => hin h (List.mem_cons_of_mem _ hmem)]

theorem peek_shift (hdev : ∀ i < n, dev (base + i) = j i) (hpos : pos + len ≤ n) :
    peek dev (base + pos) len = peek j pos len := by
  refine List.map_congr_left fun i hi => ?_
  rw [Nat.add_assoc]
  exact hdev (pos + i) (by rw [List.mem_range] at hi; omega)

/-- An entry of the journal is found at its place on the device. -/
theorem entryAt_eq (hdev : ∀ i < n, dev (base + i) = j i) (hh : h = readHeader j h.pos)
    (hin : h.pos + journalHeadersize + h.len ≤ n) (hvalid : h.Valid crc32 j) :
    entryAt crc32 inflate dev type (base + h.pos) =
      if h.type = type.code then some (h.decode inflate j) else none := by
  have hhead : readHeader dev (base + h.pos) = { h with pos := base + h.pos } := by
    rw [hh]
    simp only [journalHeadersize] at hin
    unfold readHeader
    simp only [Nat.add_assoc base, JournalHeader.mk.injEq, true_and]
    rw [peek_shift hdev (by omega), peek_shift hdev (by omega), peek_shift hdev (by omega),
      peek_shift hdev (by omega), peek_shift hdev (by omega)]
    exact ⟨rfl, rfl, rfl, rfl, rfl⟩
  have hv : JournalHeader.Valid crc32 dev { h with pos := base + h.pos } := by
    simp only [journalHeadersize] at hin
    unfold JournalHeader.Valid at hvalid ⊢
    dsimp only
    rwa [Nat.add_assoc base, peek_shift hdev (by omega)]
  unfold entryAt
  dsimp only
  rw [hhead]
  refine if_congr (and_iff_left hv) (congrArg some ?_) rfl
  unfold JournalHeader.decode
  dsimp only
  rw [Nat.add_assoc base, peek_shift hdev hin]

end Shift

/-! ## What is read -/

/-- The view of the state at the end of a run. -/
def viewOf (c : Cfg) (s : Sb) : View where
  super := readSuper ((diskSuper c s).bytes c.crc32)
  usedBytes := readUsed (dynsbBytes 0x1000 s.usedBytes)
  anchor := readAnchor (anchorData s)
  aliases := readAliases (segmentAliases c s).flatten

/-- The view says what is in memory. -/
structure Shows (c : Cfg) (s : Sb) (v : View) : Prop where
  super : (diskSuper c s).Same v.super
  usedBytes : v.usedBytes = s.usedBytes
  anchorUsed : v.anchor.usedBytes = (inodeAt s inoMaster).di.usedBytes
  anchorData : ∀ i < embeddedFields, v.anchor.data i = (inodeAt s inoMaster).di.data i
  aliases : v.aliases = readAliases (segmentAliases c s).flatten

/-- A reader finds the inodes of the root directory and of the segment file; for the other inodes
that the anchor could point to it has null pointers. -/
structure HasInodes (c : Cfg) (s : Sb) (v : View) (dev : Buf) : Prop where
  root : ∃ di, v.inode c.crc32 dev inoRoot = some di ∧ (rootInode c).Same di
  segfile : ∃ di, v.inode c.crc32 dev inoSegfile = some di ∧ (inodeAt s inoSegfile).di.Same di ∧
    di.mode = 0o100000 ∧ di.flags = 0 ∧ di.refcount = 1 ∧ di.size = c.noSegs * 8
  others : ∀ ino < i0Blocks, ino ≠ inoRoot → ino ≠ inoSegfile → v.anchor.data ino = 0

section Mount

variable {c : Cfg} {inflate : List UInt8 → List UInt8} {s : Sb} {dev : Buf} {ino : Nat}
  {i : Inode} {objs : List Obj} {file : Nat → Option Call} {f : Nat → Option Nat}

theorem Pointing.lt (h : Pointing c ino objs file f) (b : Nat) : (f b).getD 0 < 2 ^ 32 := by
  cases hb : file b with
  | none =>
    rw [h.unwritten b hb]
    decide
  | some ca =>
    obtain ⟨o, -, -, hf⟩ := h.written b ca hb
    rw [hf]
    exact ofs_lt c o

/-- The pointers of an inode are numbers of 32 bits. -/
theorem Unflushed.data_lt (h : Unflushed i f) (hk : Pointing c ino objs file f) (b : Nat) :
    i.di.data b < 2 ^ 32 := by
  rcases Nat.lt_or_ge b i0Blocks with hb | hb
  · rw [h.direct b hb]
    exact hk.lt b
  · rw [h.rest b hb]
    decide

theorem Flushed.data_lt (h : Flushed c ino i objs f) (hk : Pointing c ino objs file f) {b : Nat}
    (hb : b < embeddedFields) : i.di.data b < 2 ^ 32 := by
  rcases Nat.lt_or_ge b i0Blocks with hlt | hge
  · rw [h.direct b hlt]
    exact hk.lt b
  · by_cases h0 : i.di.height = 0
    · rw [h.rest h0 b hge]
      decide
    · obtain ⟨m, -, -, -, g, block, -, ⟨-, o, hst, -⟩, -⟩ := h.top h0
      obtain rfl : b = indirectIndex := by
        unfold embeddedFields at hb
        unfold indirectIndex
        omega
      rw [← (storedAt_eq_some hst).2]
      exact ofs_lt c o

/-- Three levels of indirect blocks are enough. -/
theorem Spans.height_le {height : Nat} (h : Spans height f) : height ≤ 3 := by
  by_contra hlt
  obtain ⟨b, hb, hgt⟩ := h.least (by omega)
  have hbelow := h.below b (indirect_ne_none.1 hb).2
  have hmono : maxbix 3 ≤ maxbix (height - 1) := maxbix_mono (by omega)
  omega

theorem Medium.pointing (h : Medium c inflate s dev) : ∃ f,
    Pointing c inoMaster (Mkfs.objects s.trace) (newFiles c s inoMaster) f ∧ Unflushed (inodeAt s inoMaster) f :=
  h.files.held.pending inoMaster (by decide)

theorem Medium.super_fits (h : Medium c inflate s dev) : (diskSuper c s).Fits := by
  have hsize := c.segsize_le
  have hshift := c.segshift_le
  have hwrite := c.writeshift_le
  refine ⟨?_, lt_of_le_of_lt hshift (by decide), lt_of_le_of_lt hwrite (by decide),
    fun m hm => ?_, fun m hm => ?_⟩
  · have hle : c.noSegs * c.segsize ≤ 2 ^ 31 * 2 ^ 30 :=
      Nat.mul_le_mul (le_of_lt h.noSegs_lt) hsize
    exact lt_of_le_of_lt hle (by decide)
  · show (if m < c.noJournalSegs then s.journalSeg m else 0) < 2 ^ 32
    split_ifs with hlt
    · exact h.journalSeg_lt m hlt
    · decide
  · show (if m = 0 then s.sbOfs1 else s.sbOfs2) < 2 ^ 64
    split_ifs
    · exact h.sbOfs_lt.1
    · exact h.sbOfs_lt.2

theorem Medium.shows (h : Medium c inflate s dev) : Shows c s (viewOf c s) := by
  obtain ⟨f, hk, hf⟩ := h.pointing
  obtain ⟨hused, hdata⟩ := readAnchor_bytes (reservedInos * blocksize) reservedInos
    (h.used_lt.2 inoMaster) fun i _ => lt_trans (hf.data_lt hk i) (show 2 ^ 32 < 2 ^ 64 by decide)
  exact ⟨readSuper_bytes h.super_fits, readUsed_bytes h.used_lt.1, hused, hdata, rfl⟩

/-- Every entry of the journal ends in the segment. -/
theorem Reads.fits {j : Buf} {h0 h1 h2 h3 : JournalHeader} (h : Reads c inflate s j h0 h1 h2 h3) :
    ∀ e ∈ [h0, h1, h2, h3], e.pos + journalHeadersize + e.len ≤ c.segsize := by
  have hapart := h.apart
  simp only [List.mem_cons, List.not_mem_nil, or_false]
  rintro e (rfl | rfl | rfl | rfl) <;> omega

/-- The walk leads to the commit entry, and this to the three others. -/
theorem Reads.found {j : Buf} {h0 h1 h2 h3 : JournalHeader}
    (h : Reads c inflate s j h0 h1 h2 h3) (hseg : s.journalSeg 0 < 2 ^ 32)
    (hdev : ∀ i < c.segsize, dev (s.journalSeg 0 * c.segsize + i) = j i) :
    ∃ commit, findEntry c.crc32 inflate dev .commit
        ((Mkfs.walk (fun i => dev (s.journalSeg 0 * c.segsize + i)) (c.segsize / 16) 32).map
          (s.journalSeg 0 * c.segsize + ·.pos)) = some commit ∧
      findEntry c.crc32 inflate dev .anchor (readWords 8 commit) = some (Mkfs.anchorData s) ∧
      findEntry c.crc32 inflate dev .dynsb (readWords 8 commit) =
        some (dynsbBytes 0x1000 s.usedBytes) ∧
      findEntry c.crc32 inflate dev .objAlias (readWords 8 commit) =
        some (segmentAliases c s).flatten := by
  have hmod := c.segsize_mod
  have hpos := c.segsize_pos
  have hwalk := h.walk (c.segsize / 16) (by omega)
  have hmet : Mkfs.walk (fun i => dev (s.journalSeg 0 * c.segsize + i)) (c.segsize / 16) 32 =
      [h0, h1, h2, h3] := by
    rw [walk_congr hdev fun e he => ?_, hwalk]
    rw [hwalk] at he
    have := h.fits e he
    omega
  have hentry : ∀ e ∈ [h0, h1, h2, h3], ∀ type,
      entryAt c.crc32 inflate dev type (s.journalSeg 0 * c.segsize + e.pos) =
        if e.type = type.code then some (e.decode inflate j) else none := fun e he type =>
    entryAt_eq hdev (mem_walk (hwalk ▸ he)) (h.fits e he) (h.valid e he).1
  have hle : s.journalSeg 0 * c.segsize ≤ 2 ^ 32 * 2 ^ 30 :=
    Nat.mul_le_mul (le_of_lt hseg) c.segsize_le
  have hsize := c.segsize_le
  have hfits := h.fits
  obtain ⟨t0, t1, t2, t3⟩ := h.types
  simp only [List.forall_mem_cons] at hentry hfits
  obtain ⟨e0, e1, e2, e3, -⟩ := hentry
  obtain ⟨b0, b1, b2, -, -⟩ := hfits
  have hwords : readWords 8 (h3.decode inflate j) = [s.journalSeg 0 * c.segsize + h0.pos,
      s.journalSeg 0 * c.segsize + h1.pos, s.journalSeg 0 * c.segsize + h2.pos] := by
    rw [h.commit]
    refine Eq.trans ?_ (readWords_flatMap (w := 8) [_, _, _] ?_ (by decide))
    · simp
    · intro x hx
      simp only [List.mem_cons, List.not_mem_nil, or_false] at hx
      omega
  refine ⟨h3.decode inflate j, ?_, ?_, ?_, ?_⟩
  · rw [hmet]
    simp [findEntry, e0, e1, e2, e3, t0, t1, t2, t3, JeType.code]
  · rw [hwords, ← h.anchor]
    simp [findEntry, e0, t0]
  · rw [hwords, ← h.dynsb]
    simp [findEntry, e0, e1, t0, t1, JeType.code]
  · rw [hwords, ← h.objAlias]
    simp [findEntry, e0, e1, e2, t0, t1, t2, JeType.code]

/-- Both superblocks lead to the same view. -/
theorem Medium.mount (h : Medium c inflate s dev) (hpos : 1 ≤ c.noJournalSegs) {ofs : Nat}
    (hofs : At dev ofs ((diskSuper c s).bytes c.crc32)) :
    mount c.crc32 inflate dev ofs = some (viewOf c s) := by
  obtain ⟨j, h0, h1, h2, h3, hr, hdev⟩ := h.journal
  obtain ⟨commit, hcommit, hanchor, hdynsb, halias⟩ := hr.found (h.journalSeg_lt 0 hpos) hdev
  have hok : superOk c.crc32 dev ofs = true := superOk_iff.2 (superAt_bytes _ hofs)
  have hsuper : readSuper (peek dev ofs 256) = (viewOf c s).super := by
    rw [hofs.peek_eq (DiskSuper.bytes_length _)]
    rfl
  have hsize : 2 ^ (viewOf c s).super.segmentShift = c.segsize := by
    rw [h.shows.super.segmentShift]
    rfl
  have hseg : (viewOf c s).super.journalSeg 0 = s.journalSeg 0 := by
    rw [h.shows.super.journalSeg 0 (by decide)]
    exact if_pos hpos
  unfold Mkfs.mount
  rw [if_pos hok, hsuper]
  dsimp only
  rw [hsize, hseg, hcommit, Option.bind_eq_bind, Option.bind_some, hanchor, Option.bind_some,
    hdynsb, Option.bind_some, halias]
  rfl

/-- The anchor points to the inodes that were written, and to no other. -/
theorem Medium.pointer (h : Medium c inflate s dev) (hino : ino < i0Blocks) :
    (newFiles c s inoMaster ino = none → (viewOf c s).anchor.data ino = 0) ∧
      ∀ ca, newFiles c s inoMaster ino = some ca → (viewOf c s).anchor.data ino ≠ 0 ∧
        At dev ((viewOf c s).anchor.data ino) (ca.bytes c) := by
  obtain ⟨f, hk, hf⟩ := h.pointing
  have hdata : (viewOf c s).anchor.data ino = (f ino).getD 0 := by
    rw [h.shows.anchorData ino (lt_trans hino (by decide)), hf.direct ino hino]
  rw [hdata]
  constructor
  · intro hnone
    rw [hk.unwritten ino hnone]
    rfl
  · intro ca hca
    obtain ⟨o, ho, rfl, hfo⟩ := hk.written ino ca hca
    rw [hfo]
    exact h.objects o ho

theorem Medium.inode_some (h : Medium c inflate s dev) (hino : ino < i0Blocks)
    (hca : newFiles c s inoMaster ino = some (inodeCall ino i)) (hfits : i.di.Fits) :
    ∃ di, (viewOf c s).inode c.crc32 dev ino = some di ∧ i.di.Same di := by
  obtain ⟨h0, hat⟩ := (h.pointer hino).2 _ hca
  refine ⟨readInode i.di.bytes, ?_, readInode_bytes hfits⟩
  have hfetch := fetchObject_eq hat
  have hbytes : peek (padded 0 i.di.bytes) 0 (objLen .inode) = i.di.bytes :=
    (at_padded 0 i.di.bytes).peek_eq i.di.bytes_length
  dsimp only [inodeCall] at hfetch
  rw [hbytes] at hfetch
  unfold View.inode
  rw [if_neg h0, hfetch, Option.map_some]

theorem Medium.root (h : Medium c inflate s dev) :
    ∃ di, (viewOf c s).inode c.crc32 dev inoRoot = some di ∧ (rootInode c).Same di := by
  rw [← h.files.root]
  refine h.inode_some (by decide) rfl ?_
  rw [h.files.root]
  have hzero : 0 < 2 ^ 64 := by decide
  refine ⟨show 0o040755 < 2 ^ 16 by decide, show 0 < 2 ^ 8 by decide, ?_,
    show 1 < 2 ^ 32 by decide, hzero, hzero, fun _ _ => hzero⟩
  unfold rootInode
  dsimp only
  split_ifs <;> decide

theorem Medium.segfile_attrs (h : Medium c inflate s dev) :
    (inodeAt s inoSegfile).di.mode = 0o100000 ∧ (inodeAt s inoSegfile).di.flags = 0 ∧
      (inodeAt s inoSegfile).di.refcount = 1 ∧ (inodeAt s inoSegfile).di.size = c.noSegs * 8 := by
  have hattrs := h.files.segfile
  simp only [Inode.attrs, segfileAttrs, Attrs.mk.injEq] at hattrs
  exact hattrs

theorem Medium.segfile (h : Medium c inflate s dev) :
    ∃ di, (viewOf c s).inode c.crc32 dev inoSegfile = some di ∧
      (inodeAt s inoSegfile).di.Same di := by
  obtain ⟨f, hk, hf⟩ := h.files.held.stored inoSegfile (by decide)
  obtain ⟨hmode, hflags, hrefcount, hsize⟩ := h.segfile_attrs
  have hsegs := h.noSegs_lt
  refine h.inode_some (by decide) rfl ⟨?_, lt_of_le_of_lt hf.spans.height_le (by decide), ?_, ?_,
    h.used_lt.2 _, ?_, fun i hi => lt_trans (hf.data_lt hk hi) (by decide)⟩
  · rw [hmode]
    decide
  · rw [hflags]
    decide
  · rw [hrefcount]
    decide
  · rw [hsize]
    omega

theorem Medium.inodes (h : Medium c inflate s dev) : HasInodes c s (viewOf c s) dev := by
  obtain ⟨di, hdi, hsame⟩ := h.segfile
  obtain ⟨hmode, hflags, hrefcount, hsize⟩ := h.segfile_attrs
  refine ⟨h.root, ⟨di, hdi, hsame, by rw [hsame.mode, hmode], by rw [hsame.flags, hflags],
    by rw [hsame.refcount, hrefcount], by rw [hsame.size, hsize]⟩, fun ino hlt hroot hseg => ?_⟩
  apply (h.pointer hlt).1
  unfold newFiles
  rw [if_neg (show ¬ inoMaster = inoSegfile by decide), if_neg]
  exact fun h => h.2.elim hroot hseg

theorem DiskInode.Same.resolve {di di' : DiskInode} (h : di.Same di') (bix : Nat) :
    resolve dev di' bix = Mkfs.resolve dev di bix := by
  unfold Mkfs.resolve
  rw [h.height, h.data indirectIndex (by decide)]
  refine ite_congr rfl (fun hlt => ?_) fun _ => rfl
  exact h.data bix (lt_trans hlt (by decide))

theorem padded_zeros (n : Nat) : padded 0 (peek (fun _ => 0) 0 n) = fun _ => 0 := by
  funext x
  rcases Nat.lt_or_ge x n with hx | hx
  · have hx' : x < (peek (fun _ => 0) 0 n).length := by rwa [peek_length]
    unfold padded
    rw [List.getD_eq_getElem _ _ hx', peek_getElem hx']
  · exact padded_default (by rwa [peek_length])

/-- The segment file reads as zeros, also where a block of it is not found. -/
theorem Medium.blocks (h : Medium c inflate s dev) {di : DiskInode}
    (hdi : (inodeAt s inoSegfile).di.Same di) :
    blocksOf c.crc32 dev inoSegfile di = zeroBlocks c := by
  obtain ⟨f, hk, hf⟩ := h.files.held.stored inoSegfile (by decide)
  obtain ⟨-, -, -, hsize⟩ := h.segfile_attrs
  funext bix
  unfold blocksOf zeroBlocks
  rw [hdi.size, hsize, hdi.resolve]
  by_cases hlt : bix < c.segfileBlocks
  · have hbix := (lt_segfileBlocks bix).1 hlt
    rw [if_neg (by omega), if_pos hlt]
    split_ifs with h0
    · rfl
    have hca : newFiles c s inoSegfile bix = some (segfileCall bix) := if_pos hlt
    obtain ⟨o, ho, hcall, hfo⟩ := hk.written bix _ hca
    have hres : resolve dev (inodeAt s inoSegfile).di bix = o.ofs c := by
      have hne : f bix ≠ none := by
        rw [hfo]
        exact Option.some_ne_none _
      refine (((hf.finds h.objects).eq_or hne).resolve_left h0).trans ?_
      rw [hfo]
      rfl
    have hat : At dev (o.ofs c) ((segfileCall bix).bytes c) := by
      rw [← hcall]
      exact (h.objects o ho).2
    have hfetch := fetchObject_eq hat
    rw [hres]
    refine (congrArg (Option.map (padded 0)) hfetch).trans ?_
    rw [Option.map_some]
    exact congrArg some (padded_zeros _)
  · rw [if_pos, if_neg hlt]
    exact not_lt.1 (mt (lt_segfileBlocks bix).2 hlt)

/-- The aliases over the blocks of the segment file are the table. -/
theorem Medium.table (h : Medium c inflate s dev) {n : Nat} (hn : n < c.noSegs) :
    (viewOf c s).segmentEntry c.crc32 dev n = some (s.segmentEntry n) := by
  obtain ⟨di, hdi, hsame⟩ := h.segfile
  have hrep := represents h.noSegs_lt h.words
  have haliases : ((viewOf c s).aliases.filter fun a => a.ino = inoSegfile ∧ a.level = 0) =
      readAliases (segmentAliases c s).flatten := by
    refine List.filter_eq_self.2 fun a ha => ?_
    obtain ⟨hino, hlevel, -⟩ := hrep.stored a ha
    exact decide_eq_true ⟨hino, hlevel⟩
  unfold View.segmentEntry
  rw [hdi, Option.bind_eq_bind, Option.bind_some, haliases, h.blocks hsame]
  exact hrep.entries n hn

end Mount

/-! ## Runs -/

section Run

variable (c : Cfg) (inflate : List UInt8 → List UInt8) (os : List Outcome) (s : Sb)

/-- Of a file system that was made, both superblocks lead to the state at the end of the run. -/
theorem mkfs_mounts (hinf : ∀ inp n, (c.deflate inp n).1 = true →
    inflate (c.deflate inp n).2 = inp) (hpos : 1 ≤ c.noJournalSegs)
    (h : mkfs c (Sb.zero os) = .ok () s) (hroom : Roomy c s) :
    ∃ v, Shows c s v ∧ ∀ init,
      mount c.crc32 inflate (s.content init) s.sbOfs1 = some v ∧
        mount c.crc32 inflate (s.content init) s.sbOfs2 = some v := by
  have hmedium := (mkfs_medium hinf hpos os).of_ok h hroom
  refine ⟨viewOf c s, (hmedium eraseBuf).1.shows, fun init => ?_⟩
  obtain ⟨hm, h1, h2⟩ := hmedium init
  exact ⟨hm.mount hpos h1, hm.mount hpos h2⟩

theorem returns_sixteen : returns (mkfs sixteenGiB) (badStart 0) = true := by decide +kernel

/-- The run on a device of sixteen gigabytes leaves room. -/
theorem roomy_sixteen : Roomy sixteenGiB (after (mkfs sixteenGiB) (badStart 0)) := by
  have h : decide ((after (mkfs sixteenGiB) (badStart 0)).lastseg * sixteenGiB.segsize ≤
      (after (mkfs sixteenGiB) (badStart 0)).sbOfs2 ∧
      (after (mkfs sixteenGiB) (badStart 0)).lastseg * sixteenGiB.segsize ≤ 2 ^ 32) = true := by
    decide +kernel
  obtain ⟨h1, h2⟩ := of_decide_eq_true h
  exact ⟨h1, h2⟩

theorem mkfs_mounts_sixteen : let s := after (mkfs sixteenGiB) (badStart 0)
    ∃ v, Shows sixteenGiB s v ∧ ∀ init,
      mount byteSum restoreZeros (s.content init) s.sbOfs1 = some v ∧
        mount byteSum restoreZeros (s.content init) s.sbOfs2 = some v := by
  obtain ⟨_, h⟩ := ok_of_returns returns_sixteen
  exact mkfs_mounts sixteenGiB restoreZeros _ _ restoreZeros_stripZeros (by decide) h roomy_sixteen

/-- The reader finds the inodes of the root directory and of the segment file, and no other. -/
theorem mkfs_inodes (hinf : ∀ inp n, (c.deflate inp n).1 = true →
    inflate (c.deflate inp n).2 = inp) (hpos : 1 ≤ c.noJournalSegs)
    (h : mkfs c (Sb.zero os) = .ok () s) (hroom : Roomy c s) (init : Buf) :
    ∃ v, mount c.crc32 inflate (s.content init) s.sbOfs1 = some v ∧
      HasInodes c s v (s.content init) := by
  obtain ⟨hmedium, hfirst, -⟩ := (mkfs_medium hinf hpos os).of_ok h hroom init
  exact ⟨viewOf c s, hmedium.mount hpos hfirst, hmedium.inodes⟩

theorem mkfs_inodes_sixteen : let s := after (mkfs sixteenGiB) (badStart 0)
    ∃ v di, mount byteSum restoreZeros (s.content eraseBuf) s.sbOfs1 = some v ∧
      v.inode byteSum (s.content eraseBuf) inoRoot = some di ∧ (rootInode sixteenGiB).Same di ∧
      v.anchor.data 5 = 0 := by
  obtain ⟨_, h⟩ := ok_of_returns returns_sixteen
  obtain ⟨v, hv, hinodes⟩ := mkfs_inodes sixteenGiB restoreZeros _ _
    restoreZeros_stripZeros (by decide) h roomy_sixteen eraseBuf
  obtain ⟨di, hdi, hsame⟩ := hinodes.root
  exact ⟨v, di, hv, hdi, hsame, hinodes.others 5 (by decide) (by decide) (by decide)⟩

/-- The table of the segments that the reader puts together is the one in memory. -/
theorem mkfs_table (hinf : ∀ inp n, (c.deflate inp n).1 = true →
    inflate (c.deflate inp n).2 = inp) (hpos : 1 ≤ c.noJournalSegs)
    (h : mkfs c (Sb.zero os) = .ok () s) (hroom : Roomy c s) (init : Buf) :
    ∃ v, mount c.crc32 inflate (s.content init) s.sbOfs1 = some v ∧ ∀ segno < c.noSegs,
      v.segmentEntry c.crc32 (s.content init) segno = some (s.segmentEntry segno) := by
  obtain ⟨hmedium, hfirst, -⟩ := (mkfs_medium hinf hpos os).of_ok h hroom init
  exact ⟨viewOf c s, hmedium.mount hpos hfirst, fun segno hsegno => hmedium.table hsegno⟩

theorem mkfs_table_sixteen : let s := after (mkfs sixteenGiB) (badStart 0)
    ∃ v, mount byteSum restoreZeros (s.content eraseBuf) s.sbOfs1 = some v ∧
      v.segmentEntry byteSum (s.content eraseBuf) 15 = some ⟨ecLevel 1 0, reserved⟩ := by
  obtain ⟨_, h⟩ := ok_of_returns returns_sixteen
  obtain ⟨v, hv, htable⟩ := mkfs_table sixteenGiB restoreZeros _ _
    restoreZeros_stripZeros (by decide) h roomy_sixteen eraseBuf
  have hentry : (after (mkfs sixteenGiB) (badStart 0)).segmentEntry 15 = ⟨ecLevel 1 0, reserved⟩ := by
    decide +kernel
  have h15 := htable 15 (by decide)
  rw [hentry] at h15
  exact ⟨v, hv, h15⟩

end Run

end Logfs.Mkfs
