import Logfs.Mkfs.Commit
import Logfs.Mkfs.Lookup

/-!
# The files of a new file system

`mkfs` writes two files.  The segment file has a block of zeros for every block of
the segment table; the inode file has the inodes of the root directory and of the
segment file.  Here that is said of the inodes in memory and of the objects they
point to, when all of `mkfs` up to `flush_segments` has returned.
-/

namespace Logfs.Mkfs

open Relation (ReflTransGen)

/-! ## Attributes -/

/-- What an inode says of its file, other than where it is and how much room it takes. -/
structure Attrs where
  mode : Nat
  flags : Nat
  refcount : Nat
  size : Nat
deriving DecidableEq, Repr

def Inode.attrs (i : Inode) : Attrs := ⟨i.di.mode, i.di.flags, i.di.refcount, i.di.size⟩

/-- Two inodes with the same pointers. -/
structure SamePointers (i i' : Inode) : Prop where
  height : i'.di.height = i.di.height
  data : i'.di.data = i.di.data
  blockTree : i'.blockTree = i.blockTree

section Attrs

variable {c : Cfg} {i i' : Inode} {ino bix level ofs len n : Nat} {objs : List Obj}
  {f : Nat → Option Nat} {x y : FileState}

theorem SamePointers.refl (i : Inode) : SamePointers i i := ⟨rfl, rfl, rfl⟩

theorem Unflushed.congr (h : Unflushed i f) (hs : SamePointers i i') : Unflushed i' f where
  direct := by rw [hs.data]; exact h.direct
  rest := by rw [hs.data]; exact h.rest
  pointed := by rw [hs.blockTree]; exact h.pointed
  upper := by rw [hs.blockTree]; exact h.upper
  spans := by rw [hs.height]; exact h.spans

theorem Flushed.congr (h : Flushed c ino i objs f) (hs : SamePointers i i') :
    Flushed c ino i' objs f where
  direct := by rw [hs.data]; exact h.direct
  rest := by rw [hs.height, hs.data]; exact h.rest
  spans := by rw [hs.height]; exact h.spans
  top := by rw [hs.height, hs.data]; exact h.top

theorem growInodeHeight_attrs : (growInodeHeight i bix level).attrs = i.attrs := by
  unfold growInodeHeight
  split_ifs <;> rfl

/-- Storing a block does not touch the attributes. -/
theorem stored_attrs : (i.stored bix level ofs len).attrs = i.attrs := by
  unfold Inode.stored
  split_ifs
  · rfl
  · have hgrow : (growInodeHeight i bix level).attrs = i.attrs := growInodeHeight_attrs
    refine Eq.trans ?_ hgrow
    unfold Inode.attrs Inode.grow
    rw [setSlot_di]
    dsimp only
    rw [findOrCreateBlock_di]

theorem FlushTurn.attrs (h : FlushTurn c ino level x y) : y.1.attrs = x.1.attrs := by
  cases h with
  | mk hlast ho => exact stored_attrs

theorem LevelsFlushed.attrs (h : LevelsFlushed c ino n level x y) : y.1.attrs = x.1.attrs := by
  induction n generalizing level x with
  | zero => rw [show y = x from h]
  | succ n ih =>
    obtain ⟨z, hz, hy⟩ := h
    refine (ih hy).trans ?_
    have hturns := hz.turns
    clear hz hy
    induction hturns with
    | refl => rfl
    | tail _ hturn ih => exact hturn.attrs.trans ih

/-- Neither does a flush. -/
theorem FileFlushed.attrs (h : FileFlushed c ino x y) : y.1.attrs = x.1.attrs := by
  cases h with
  | flat h => rfl
  | tall h h0 hlevels hlast ho => exact hlevels.attrs

end Attrs

/-! ## One file after the other -/

/-- The run has written one file: its attributes and the other inodes are as before. -/
structure Touches (ino : Nat) (s s' : Sb) : Prop where
  attrs : (inodeAt s' ino).attrs = (inodeAt s ino).attrs
  others : ∀ x, x ≠ ino → inodeAt s' x = inodeAt s x

section Touches

variable {c : Cfg} {s s1 s' : Sb} {ino : Nat} {ca : Call} {done : List Nat}
  {files : Nat → Nat → Option Call}

theorem Touches.refl (ino : Nat) (s : Sb) : Touches ino s s := ⟨rfl, fun _ _ => rfl⟩

theorem Touches.trans (h : Touches ino s s1) (h1 : Touches ino s1 s') : Touches ino s s' :=
  ⟨h1.attrs.trans h.attrs, fun x hx => (h1.others x hx).trans (h.others x hx)⟩

theorem Touches.of_update {i : Inode} (hat : inodeAt s' = Function.update (inodeAt s) ino i)
    (hi : i.attrs = (inodeAt s ino).attrs) : Touches ino s s' := by
  refine ⟨?_, fun x hx => ?_⟩
  · rw [hat, Function.update_self, hi]
  · rw [hat, Function.update_of_ne hx]

theorem Filed.touches (h : Filed c ca s s') : Touches ca.ino s s' := by
  obtain ⟨o, -, -, hat⟩ := h.obj
  exact .of_update hat stored_attrs

theorem FileRan.touches (h : FileRan c ino (FileFlushed c ino) s s') : Touches ino s s' := by
  obtain ⟨i, new, -, hat, hr⟩ := h.change
  exact .of_update hat (hr []).attrs

/-- The files are held by any inodes with the same pointers. -/
theorem FilesHeld.congr (h : FilesHeld c files done s) (hobj : objects s'.trace = objects s.trace)
    (hat : ∀ ino, SamePointers (inodeAt s ino) (inodeAt s' ino)) : FilesHeld c files done s' where
  pending ino hino := by
    obtain ⟨f, hk, hf⟩ := h.pending ino hino
    exact ⟨f, by rwa [hobj], hf.congr (hat ino)⟩
  plain := by rw [hobj]; exact h.plain
  stored ino hino := by
    obtain ⟨f, hk, hf⟩ := h.stored ino hino
    rw [hobj]
    exact ⟨f, hk, hf.congr (hat ino)⟩

theorem FilesHeld.same (h : FilesHeld c files done s) (hobj : objects s'.trace = objects s.trace)
    (hat : inodeAt s' = inodeAt s) : FilesHeld c files done s' :=
  h.congr hobj fun ino => by rw [hat]; exact .refl _

theorem FilesHeld.modified {i : Inode} (h : FilesHeld c files done s)
    (hobj : objects s'.trace = objects s.trace)
    (hat : inodeAt s' = Function.update (inodeAt s) ino i) (hi : SamePointers (inodeAt s ino) i) :
    FilesHeld c files done s' := by
  refine h.congr hobj fun x => ?_
  rw [hat, Function.update_apply]
  split_ifs with hx
  · rw [hx]
    exact hi
  · exact .refl _

end Touches

/-! ## The two files -/

/-- The blocks of the segment file from `ofs` on, beside those of a file. -/
def segfileFrom (c : Cfg) (ofs : Nat) (file : Nat → Option Call) : Nat → Option Call := fun bix =>
  if ofs ≤ bix ∧ bix < c.segfileBlocks then some (segfileCall bix) else file bix

/-- The files of a new file system. -/
def newFiles (c : Cfg) (s : Sb) : Nat → Nat → Option Call := fun ino bix =>
  if ino = inoSegfile then if bix < c.segfileBlocks then some (segfileCall bix) else none
  else if ino = inoMaster ∧ (bix = inoRoot ∨ bix = inoSegfile) then
    some (inodeCall bix (inodeAt s bix))
  else none

/-- What `write_segment_file` says of the segment file. -/
def segfileAttrs (c : Cfg) : Attrs := ⟨0o100000, 0, 1, c.noSegs * 8⟩

/-- The inode of an empty directory. -/
def rootInode (c : Cfg) : DiskInode :=
  ⟨0o040755, 0, if c.compressRootdir then ifCompressed else 0, 1, 0, 0, fun _ => 0⟩

/-- All files have been written, and the segment file flushed. -/
structure NewFiles (c : Cfg) (s : Sb) : Prop where
  held : FilesHeld c (newFiles c s) [inoSegfile] s
  segfile : (inodeAt s inoSegfile).attrs = segfileAttrs c
  root : (inodeAt s inoRoot).di = rootInode c

section Stages

variable {c : Cfg} {s s' : Sb} {ino : Nat} {done : List Nat} {files : Nat → Nat → Option Call}

/-- The files in the order in which they are written. -/
theorem newFiles_eq : newFiles c s = Function.update (Function.update (fun _ _ => none) inoSegfile
    (segfileFrom c 0 fun _ => none)) inoMaster (Function.update (Function.update (fun _ => none)
      inoSegfile (some (inodeCall inoSegfile (inodeAt s inoSegfile)))) inoRoot
      (some (inodeCall inoRoot (inodeAt s inoRoot)))) := by
  funext ino bix
  unfold newFiles
  by_cases hseg : ino = inoSegfile
  · subst hseg
    rw [if_pos rfl, Function.update_of_ne (by decide), Function.update_self, segfileFrom]
    exact if_congr (by simp) rfl rfl
  · rw [if_neg hseg]
    by_cases hmaster : ino = inoMaster
    · subst hmaster
      rw [Function.update_self]
      by_cases hr : bix = inoRoot
      · subst hr
        rw [if_pos ⟨rfl, Or.inl rfl⟩, Function.update_self]
      · rw [Function.update_of_ne hr]
        by_cases hs : bix = inoSegfile
        · subst hs
          rw [if_pos ⟨rfl, Or.inr rfl⟩, Function.update_self]
        · rw [Function.update_of_ne hs, if_neg fun h => h.2.elim hr hs]
    · rw [if_neg fun h => hmaster h.1, Function.update_of_ne hmaster, Function.update_of_ne hseg]

theorem segfileBlocks_lt (c : Cfg) {bix : Nat} (h : bix < c.segfileBlocks) : bix < maxbix 3 := by
  have hlt := (lt_segfileBlocks bix).1 h
  have hsegs := c.noSegs_lt
  have h3 : maxbix 3 = 134217728 := by decide
  simp only [blocksize, blockshift] at hlt
  omega

theorem writeSegmentBlocks_held : ∀ (n ofs : Nat) (s : Sb) (files : Nat → Nat → Option Call),
    Ready s → FilesHeld c files [] s → c.segfileBlocks ≤ ofs + n →
    Wp (writeSegmentBlocks c n ofs) (fun r s' => r = 0 → Ready s' ∧ Touches inoSegfile s s' ∧
        FilesHeld c (Function.update files inoSegfile (segfileFrom c ofs (files inoSegfile))) [] s')
      (fun _ _ => True) s := by
  have hdone : ∀ {ofs} (file : Nat → Option Call), c.segfileBlocks ≤ ofs →
      segfileFrom c ofs file = file := fun file h => by
    funext bix
    exact if_neg (by omega)
  intro n
  induction n with
  | zero =>
    intro ofs s files hready h hn _
    rw [hdone _ (by omega), Function.update_eq_self]
    exact ⟨hready, .refl _ s, h⟩
  | succ n ih =>
    intro ofs s files hready h hn
    unfold writeSegmentBlocks
    rw [wp_ite, ← lt_segfileBlocks]
    refine ⟨fun hlt => ?_, fun hge _ => ?_⟩
    · refine (logfsFileWrite_spec hready).seq ?_ fun _ _ _ => trivial
      rintro err s1 (⟨rfl, h1⟩ | ⟨rfl, -⟩)
      · rw [if_neg (by decide)]
        have hready1 : Ready s1 := by
          obtain ⟨o, -, hran, -⟩ := h1.obj
          exact hran.ready hready
        refine (ih (ofs + 1) s1 _ hready1
          (h.filed h1 ⟨by simp, rfl, segfileBlocks_lt c hlt⟩) (by omega)).imp ?_
        intro r s2 h2 hr
        obtain ⟨hready2, ht, hheld⟩ := h2 hr
        refine ⟨hready2, h1.touches.trans ht, ?_⟩
        rw [Function.update_idem, Function.update_self] at hheld
        have hfile : segfileFrom c (ofs + 1) (Function.update (files inoSegfile) ofs
            (some (segfileCall ofs))) = segfileFrom c ofs (files inoSegfile) := by
          funext bix
          unfold segfileFrom
          rw [Function.update_apply]
          by_cases hbix : bix = ofs
          · rw [hbix, if_neg (by omega), if_pos rfl, if_pos (by omega)]
          · rw [if_neg hbix]
            exact if_congr (by omega) rfl rfl
        rwa [← hfile]
      · rw [if_pos (by decide)]
        exact fun hr => absurd hr (by decide)
    · rw [hdone _ (by omega), Function.update_eq_self]
      exact ⟨hready, .refl _ s, h⟩

/-- What holds when a function returns zero holds behind `if (ret) fail(msg)`. -/
theorem orFail_zero {msg : String} {m : MkfsM Int} {P : Sb → Prop}
    (h : Wp m (fun r s' => r = 0 → P s') (fun _ _ => True) s) :
    Wp (orFail msg m) (fun _ s' => P s') (fun _ _ => True) s :=
  wp_orFail (h.imp fun _ _ h => ⟨h, fun _ => trivial⟩)

/-- `write_inode` adds the inode to the inode file. -/
theorem writeInode_held (hready : Ready s) (h : FilesHeld c files done s) (hlt : ino < maxbix 3)
    (hdone : inoMaster ∉ done) :
    Wp (writeInode c ino) (fun r s' => r = 0 → Ready s' ∧ Touches inoMaster s s' ∧
        FilesHeld c (Function.update files inoMaster (Function.update (files inoMaster) ino
          (some (inodeCall ino (inodeAt s ino))))) done s')
      (fun _ _ => True) s := by
  unfold writeInode
  refine (findOrCreateInode_spec c ino s).bind ?_
  rintro i s1 ⟨rfl, h1, hat1, -⟩
  refine (logfsFileWrite_spec (h1.ready hready)).mono ?_ fun _ _ _ => trivial
  rintro r s2 (⟨-, h2⟩ | ⟨rfl, -⟩)
  · intro _
    have ht := h2.touches
    obtain ⟨o, -, hran, -⟩ := h2.obj
    refine ⟨(hran.ready ∘ h1.ready) hready, ⟨?_, fun x hx => ?_⟩,
      (h.same h1.objects hat1).filed h2 ⟨hdone, rfl, hlt⟩⟩
    · rw [ht.attrs, hat1]
    · rw [ht.others x hx, hat1]
  · exact fun hr => absurd hr (by decide)

/-- `write_segment_file` writes and flushes the segment file, and adds its inode. -/
theorem writeSegmentFile_held (hready : Ready s) (h : FilesHeld c (fun _ _ => none) [] s) :
    Wp (writeSegmentFile c) (fun r s' => r = 0 → Ready s' ∧
        (inodeAt s' inoSegfile).attrs = segfileAttrs c ∧
        (∀ x, x ≠ inoSegfile → x ≠ inoMaster → inodeAt s' x = inodeAt s x) ∧
        FilesHeld c (Function.update (Function.update (fun _ _ => none) inoSegfile
            (segfileFrom c 0 fun _ => none)) inoMaster (Function.update (fun _ => none) inoSegfile
            (some (inodeCall inoSegfile (inodeAt s' inoSegfile))))) [inoSegfile] s')
      (fun _ _ => True) s := by
  unfold writeSegmentFile
  refine (findOrCreateInode_spec c inoSegfile s).bind ?_
  rintro - s1 ⟨-, h1, hat1, hi1⟩
  refine (modifyInode_spec c hi1 ?_).bind ?_
  · exact fun i => rfl
  rintro - s2 ⟨h2, hat2⟩
  have hready2 := h2.ready (h1.ready hready)
  have hheld2 : FilesHeld c (fun _ _ => none) [] s2 := by
    rw [hat1] at hat2
    exact h.modified (by rw [h2.objects, h1.objects]; rfl) hat2 ⟨rfl, rfl, rfl⟩
  have hattrs2 : (inodeAt s2 inoSegfile).attrs = segfileAttrs c := by
    rw [hat2, Function.update_self]
    rfl
  have hothers2 : ∀ x, x ≠ inoSegfile → inodeAt s2 x = inodeAt s x := fun x hx => by
    rw [hat2, Function.update_of_ne hx, hat1]
  refine (writeSegmentBlocks_held _ 0 s2 _ hready2 hheld2 ?_).seq ?_ fun _ _ _ => trivial
  · have h := not_lt.1 (mt (lt_segfileBlocks (c := c) (c.noSegs * 8 / blocksize + 1)).1 ?_)
    · omega
    · have := Nat.lt_div_mul_add (a := c.noSegs * 8) (show 0 < blocksize by decide)
      rw [Nat.add_mul, Nat.one_mul]
      omega
  intro err s3 h3
  rw [wp_ite]
  refine ⟨fun hne hr => absurd hr hne, fun h0 => ?_⟩
  obtain ⟨hready3, ht3, hheld3⟩ := h3 (not_not.1 h0)
  refine (logfsFileFlush_spec hready3).seq ?_ fun _ _ _ => trivial
  rintro err s4 (⟨rfl, h4⟩ | ⟨rfl, -⟩)
  · rw [if_neg (by decide)]
    have ht := ht3.trans h4.touches
    have hheld4 := hheld3.flushed (List.not_mem_nil) h4
    refine (writeInode_held (h4.ready hready3) hheld4 (by decide) (by decide)).imp ?_
    intro r s5 h5 hr
    obtain ⟨hready5, ht5, hheld5⟩ := h5 hr
    have hseg : inodeAt s5 inoSegfile = inodeAt s4 inoSegfile := ht5.others _ (by decide)
    refine ⟨hready5, ?_, fun x hx hx' => ?_, ?_⟩
    · rw [hseg, ht.attrs, hattrs2]
    · rw [ht5.others x hx', ht.others x hx, hothers2 x hx]
    · rw [hseg]
      rwa [Function.update_of_ne (show inoMaster ≠ inoSegfile by decide)] at hheld5
  · rw [if_pos (by decide)]
    exact fun hr => absurd hr (by decide)

/-- `write_rootdir` adds the inode of the root directory. -/
theorem writeRootdir_held (hready : Ready s) (h : FilesHeld c files done s)
    (hdone : inoMaster ∉ done) (hroot : inodeAt s inoRoot = .zero) :
    Wp (writeRootdir c) (fun r s' => r = 0 → Ready s' ∧ (inodeAt s' inoRoot).di = rootInode c ∧
        (∀ x, x ≠ inoRoot → x ≠ inoMaster → inodeAt s' x = inodeAt s x) ∧
        FilesHeld c (Function.update files inoMaster (Function.update (files inoMaster) inoRoot
          (some (inodeCall inoRoot (inodeAt s' inoRoot))))) done s')
      (fun _ _ => True) s := by
  unfold writeRootdir
  refine (findOrCreateInode_spec c inoRoot s).bind ?_
  rintro - s1 ⟨-, h1, hat1, hi1⟩
  refine (modifyInode_spec c hi1 ?_).bind ?_
  · exact fun i => rfl
  rintro - s2 ⟨h2, hat2⟩
  have hheld2 : FilesHeld c files done s2 := by
    rw [hat1] at hat2
    exact h.modified (by rw [h2.objects, h1.objects]; rfl) hat2 ⟨rfl, rfl, rfl⟩
  refine (writeInode_held (h2.ready (h1.ready hready)) hheld2 (by decide) hdone).imp ?_
  intro r s3 h3 hr
  obtain ⟨hready3, ht3, hheld3⟩ := h3 hr
  have hat3 : inodeAt s3 inoRoot = inodeAt s2 inoRoot := ht3.others _ (by decide)
  refine ⟨hready3, ?_, fun x hx hx' => ?_, ?_⟩
  · rw [hat3, hat2, Function.update_self, hat1, hroot]
    rfl
  · rw [ht3.others x hx', hat2, Function.update_of_ne hx, hat1]
  · rw [hat3]
    exact hheld3

/-- When everything up to `flush_segments` has returned, the files are as they should be. -/
theorem mkfsStore_newFiles (hb : Blank c s) :
    Wp (mkfsStore c) (fun _ s' => NewFiles c s') (fun _ _ => True) s := by
  unfold mkfsStore
  refine (prepareJournal_spec s).seq ?_ fun _ _ _ => trivial
  rintro - s1 ⟨h1, hino1⟩
  have hready1 := h1.ready hb.ready
  have hheld1 : FilesHeld c (fun _ _ => none) [] s1 := by
    refine hb.filesHeld.same h1.objects ?_
    unfold inodeAt
    rw [hino1]
  have hzero1 : ∀ ino, inodeAt s1 ino = .zero := fun ino => by
    unfold inodeAt
    rw [hino1, hb.inoTree]
    rfl
  refine (orFail_zero (writeSegmentFile_held hready1 hheld1)).bind ?_
  rintro - s2 ⟨hready2, hattrs2, hothers2, hheld2⟩
  have hroot2 : inodeAt s2 inoRoot = .zero := by
    rw [hothers2 _ (by decide) (by decide), hzero1]
  refine (orFail_zero (writeRootdir_held hready2 hheld2 (by decide) hroot2)).bind ?_
  rintro - s3 ⟨hready3, hdi3, hothers3, hheld3⟩
  refine orFail_zero ((flushSegments_spec hready3).mono ?_ fun _ _ _ => trivial)
  intro ret s4 h4 h0
  obtain ⟨-, h4⟩ := h4.resolve_right fun h => by rw [h0] at h; exact absurd h.1 (by decide)
  have hat4 : inodeAt s4 = inodeAt s3 := by
    unfold inodeAt
    rw [h4.inoTree]
  have hseg : inodeAt s3 inoSegfile = inodeAt s2 inoSegfile := hothers3 _ (by decide) (by decide)
  refine ⟨?_, ?_, ?_⟩
  · rw [newFiles_eq, hat4, hseg]
    refine FilesHeld.same ?_ h4.objects hat4
    simpa only [Function.update_self, Function.update_idem] using hheld3
  · rw [hat4, hseg, hattrs2]
  · rw [hat4, hdi3]

end Stages

end Logfs.Mkfs
