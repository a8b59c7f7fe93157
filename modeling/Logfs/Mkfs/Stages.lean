import Logfs.Mkfs.Files

/-!
# The stages of a run

What `write_segment_file`, `write_rootdir` and `flush_segments` store, and how
`prepare_journal` takes its segments.
-/

namespace Logfs.Mkfs

open Relation (ReflTransGen)

/-! ## The objects of a flush -/

/-- An indirect block of the file. -/
structure Obj.Indirect (o : Obj) (ino : Nat) : Prop where
  ino_eq : o.ino = ino
  type_eq : o.type = .block
  level_pos : o.level ≠ 0

/-- The objects of `y` are those of `x` behind indirect blocks. -/
def AddsIndirect (ino : Nat) (x y : FileState) : Prop :=
  ∃ new, y.2 = new ++ x.2 ∧ ∀ o ∈ new, o.Indirect ino

section Indirect

variable {c : Cfg} {ino level n : Nat} {x y z : FileState}

theorem AddsIndirect.refl (ino : Nat) (x : FileState) : AddsIndirect ino x x :=
  ⟨[], rfl, by simp⟩

theorem AddsIndirect.trans (h : AddsIndirect ino x y) (h1 : AddsIndirect ino y z) :
    AddsIndirect ino x z := by
  obtain ⟨new, h, hn⟩ := h
  obtain ⟨new1, h1, hn1⟩ := h1
  refine ⟨new1 ++ new, by rw [h1, h, List.append_assoc], fun o ho => ?_⟩
  rcases List.mem_append.1 ho with ho | ho
  · exact hn1 o ho
  · exact hn o ho

theorem AddsIndirect.cons {o : Obj} (h : AddsIndirect ino x y) (ho : o.Indirect ino) {i : Inode} :
    AddsIndirect ino x (i, o :: y.2) := by
  obtain ⟨new, h, hn⟩ := h
  exact ⟨o :: new, by rw [h]; rfl, List.forall_mem_cons.2 ⟨ho, hn⟩⟩

theorem indirect_of_call {o : Obj} {bix : Nat} {data : Buf}
    (h : o.call = ⟨.block, ino, bix, level, data⟩) (h0 : level ≠ 0) : o.Indirect ino :=
  ⟨congrArg Call.ino h, congrArg Call.type h, by
    rw [show o.level = level from congrArg Call.level h]; exact h0⟩

theorem LevelFlushed.adds (h : LevelFlushed c ino level x y) (h0 : level ≠ 0) :
    AddsIndirect ino x y := by
  obtain ⟨hturns, -⟩ := h
  induction hturns with
  | refl => exact .refl ino x
  | tail _ hturn ih =>
    cases hturn with
    | mk hlast ho => exact ih.cons (indirect_of_call ho h0)

theorem LevelsFlushed.adds (h : LevelsFlushed c ino n level x y) (h0 : level ≠ 0) :
    AddsIndirect ino x y := by
  induction n generalizing level x with
  | zero =>
    rw [show y = x from h]
    exact .refl ino x
  | succ n ih =>
    obtain ⟨z, hz, hy⟩ := h
    exact (hz.adds h0).trans (ih hy (by omega))

/-- A flush stores indirect blocks only. -/
theorem FileFlushed.adds (h : FileFlushed c ino x y) : AddsIndirect ino x y := by
  cases h with
  | flat h => exact .refl ino x
  | tall h h0 hlevels hlast ho =>
    exact (hlevels.adds (by decide)).cons (indirect_of_call ho h0)

end Indirect

/-! ## The segment file -/

/-- The blocks the segment file is made of. -/
def Cfg.segfileBlocks (c : Cfg) : Nat := align (c.noSegs * 8) blocksize / blocksize

/-- The call for a block of the segment file. -/
def segfileCall (bix : Nat) : Call := ⟨.block, inoSegfile, bix, 0, fun _ => 0⟩

/-- The call of `write_inode` for an inode. -/
def inodeCall (ino : Nat) (i : Inode) : Call := ⟨.inode, inoMaster, ino, 0, padded 0 i.di.bytes⟩

/-- What `write_segment_file` stores, newest first: its blocks, indirect blocks, its inode. -/
structure SegfileObjs (c : Cfg) (s' : Sb) (new : List Obj) : Prop where
  split : ∃ blocks indirect o, new = o :: (indirect ++ blocks) ∧
    blocks.map Obj.call = ((List.range c.segfileBlocks).map segfileCall).reverse ∧
    (∀ o ∈ indirect, o.Indirect inoSegfile) ∧
    o.call = inodeCall inoSegfile (inodeAt s' inoSegfile)

section Segfile

variable {c : Cfg} {s : Sb} {ino : Nat}

theorem lt_segfileBlocks (ofs : Nat) : ofs < c.segfileBlocks ↔ ofs * blocksize < c.noSegs * 8 := by
  unfold Cfg.segfileBlocks align
  rw [Nat.mul_div_cancel _ (by decide)]
  simp only [blocksize, blockshift]
  omega

/-- `write_inode` stores the inode as it is. -/
theorem writeInode_spec (hready : Ready s) (hino : ino ≠ inoMaster) :
    Wp (writeInode c ino)
      (fun r s' => (r = 0 ∧ ∃ o, Ran c [o] s s' ∧ o.call = inodeCall ino (inodeAt s' ino) ∧
        ∀ x, x ≠ inoMaster → inodeAt s' x = inodeAt s x) ∨ r = - EIO ∧ Failed c s s')
      (fun _ s' => Halted c s s') s := by
  unfold writeInode
  refine (findOrCreateInode_spec c ino s).bind ?_
  rintro i s1 ⟨rfl, h1, hat1, -⟩
  refine (logfsFileWrite_spec (h1.ready hready)).mono ?_ fun _ _ => h1.calm.halted
  rintro r s2 (⟨hr, o, ho, h2, hat2⟩ | ⟨hr, hf⟩)
  · have hother : ∀ x, x ≠ inoMaster → inodeAt s2 x = inodeAt s x := fun x hx => by
      rw [hat2, Function.update_of_ne hx, hat1]
    refine Or.inl ⟨hr, o, by simpa using h1.trans h2, ?_, hother⟩
    rw [ho, hother ino hino]
    rfl
  · exact Or.inr ⟨hr, h1.calm.failed hf⟩

/-- The loop of `write_segment_file` writes the blocks from `ofs` on. -/
theorem writeSegmentBlocks_spec : ∀ (n ofs : Nat) (s : Sb), Ready s →
    c.segfileBlocks ≤ ofs + n →
    Wp (writeSegmentBlocks c n ofs)
      (fun r s' => (r = 0 ∧ ∃ new, Ran c new s s' ∧ new.map Obj.call =
        ((List.range' ofs (c.segfileBlocks - ofs)).map segfileCall).reverse) ∨
        r = - EIO ∧ Failed c s s')
      (fun _ s' => Halted c s s') s := by
  intro n
  induction n with
  | zero =>
    intro ofs s _ hn
    refine Or.inl ⟨rfl, [], .refl c s, ?_⟩
    rw [Nat.sub_eq_zero_of_le (by omega)]
    rfl
  | succ n ih =>
    intro ofs s hready hn
    unfold writeSegmentBlocks
    rw [wp_ite, ← lt_segfileBlocks]
    refine ⟨fun hlt => ?_, fun hge => ?_⟩
    · refine (logfsFileWrite_spec hready).seq ?_ fun _ _ h => h
      rintro err s1 (⟨rfl, o, ho, h1, -⟩ | ⟨rfl, hf⟩)
      · rw [if_neg (by decide)]
        refine (ih (ofs + 1) s1 (h1.ready hready) (by omega)).mono ?_ fun _ _ => h1.calm.halted
        rintro r s2 (⟨hr, new, h2, hnew⟩ | ⟨hr, hf⟩)
        · refine Or.inl ⟨hr, new ++ [o], h1.trans h2, ?_⟩
          rw [List.map_append, hnew, show c.segfileBlocks - ofs = c.segfileBlocks - (ofs + 1) + 1
            by omega, List.range'_succ, List.map_cons (f := segfileCall), List.reverse_cons,
            List.map_singleton, ho]
          rfl
        · exact Or.inr ⟨hr, h1.calm.failed hf⟩
      · rw [if_pos (by decide)]
        exact Or.inr ⟨rfl, hf⟩
    · refine Or.inl ⟨rfl, [], .refl c s, ?_⟩
      rw [Nat.sub_eq_zero_of_le (not_lt.1 hge)]
      rfl

theorem writeSegmentFile_spec (hready : Ready s) :
    Wp (writeSegmentFile c)
      (fun r s' => (r = 0 ∧ ∃ new, Ran c new s s' ∧ SegfileObjs c s' new) ∨
        r = - EIO ∧ Failed c s s')
      (fun _ s' => Halted c s s') s := by
  unfold writeSegmentFile
  refine (findOrCreateInode_spec c inoSegfile s).bind ?_
  rintro - s1 ⟨-, h1, -, hi1⟩
  refine (modifyInode_spec c hi1 ?_).bind ?_
  · exact fun i => rfl
  rintro - s2 ⟨h2, -⟩
  have h12 := h1.trans h2
  refine (writeSegmentBlocks_spec _ 0 s2 (h12.ready hready) ?_).seq ?_ fun _ _ => h12.calm.halted
  · have h := not_lt.1 (mt (lt_segfileBlocks (c := c)
      (c.noSegs * 8 / blocksize + 1)).1 ?_)
    · omega
    · have := Nat.lt_div_mul_add (a := c.noSegs * 8) (show 0 < blocksize by decide)
      rw [Nat.add_mul, Nat.one_mul]
      omega
  rintro err s3 (⟨rfl, blocks, h3, hblocks⟩ | ⟨rfl, hf⟩)
  · rw [if_neg (by decide)]
    have h13 := h12.trans h3
    refine (logfsFileFlush_spec (h13.ready hready)).seq ?_ fun _ _ => h13.calm.halted
    rintro err s4 (⟨rfl, h4⟩ | ⟨rfl, hf⟩)
    · rw [if_neg (by decide)]
      obtain ⟨i, indirect, h4, -, hrel⟩ := h4.change
      obtain ⟨new, hnew, hall⟩ := (hrel []).adds
      have h14 := h13.trans h4
      refine (writeInode_spec (h14.ready hready) (by decide)).mono ?_ fun _ _ => h14.calm.halted
      rintro r s5 (⟨hr, o, h5, ho, -⟩ | ⟨hr, hf⟩)
      · refine Or.inl ⟨hr, _, h14.trans h5, blocks, indirect, o, by simp, ?_, ?_, ho⟩
        · rw [hblocks, Nat.sub_zero, List.range_eq_range']
        · simp only [List.append_nil] at hnew
          rw [hnew]
          exact hall
      · exact Or.inr ⟨hr, h14.calm.failed hf⟩
    · rw [if_pos (by decide)]
      exact Or.inr ⟨rfl, h13.calm.failed hf⟩
  · rw [if_pos (by decide)]
    exact Or.inr ⟨rfl, h12.calm.failed hf⟩

/-- `write_rootdir` stores one inode. -/
theorem writeRootdir_spec (hready : Ready s) :
    Wp (writeRootdir c)
      (fun r s' => (r = 0 ∧ ∃ o, Ran c [o] s s' ∧ o.call = inodeCall inoRoot (inodeAt s' inoRoot) ∧
        inodeAt s' inoSegfile = inodeAt s inoSegfile) ∨ r = - EIO ∧ Failed c s s')
      (fun _ s' => Halted c s s') s := by
  unfold writeRootdir
  refine (findOrCreateInode_spec c inoRoot s).bind ?_
  rintro - s1 ⟨-, h1, hat1, hi1⟩
  refine (modifyInode_spec c hi1 ?_).bind ?_
  · exact fun i => rfl
  rintro - s2 ⟨h2, hat2⟩
  have h12 := h1.trans h2
  refine (writeInode_spec (h12.ready hready) (by decide)).mono ?_ fun _ _ => h12.calm.halted
  rintro r s3 (⟨hr, o, h3, ho, hother⟩ | ⟨hr, hf⟩)
  · refine Or.inl ⟨hr, o, by simpa using h12.trans h3, ho, ?_⟩
    rw [hother _ (by decide), hat2, Function.update_of_ne (by decide), hat1]
  · exact Or.inr ⟨hr, h12.calm.failed hf⟩

end Segfile

/-! ## The areas at the end, the journal segments at the beginning -/

/-- The areas from `i` on, `n` of them, are closed; the others are as before. -/
structure AreasClosed (c : Cfg) (n i : Nat) (s s' : Sb) : Prop where
  calm : Calm c s s'
  inoTree : s'.inoTree = s.inoTree
  objects : objects s'.trace = objects s.trace
  closed : ∀ l, i ≤ l → l < i + n → isOpen l s'.trace = false
  others : ∀ l, ¬ (i ≤ l ∧ l < i + n) → isOpen l s'.trace = isOpen l s.trace

section Flush

variable {c : Cfg} {s : Sb}

/-- `finish_area` on area `i`, when it has a buffer. -/
theorem finishOpened_spec {i : Nat} (hi : i < noAreas)
    (hready : isOpen i s.trace = (s.area i).buf.isSome) :
    Wp (if (s.area i).buf.isSome then finishArea c i true else pure 0)
      (fun err s' => (err = 0 ∧ AreasClosed c 1 i s s' ∧ s'.area = s.area) ∨
        err = - EIO ∧ Failed c s s') (fun _ s' => Halted c s s') s := by
  rw [wp_ite]
  refine ⟨fun h => ?_, fun h => ?_⟩
  · obtain ⟨buf, hbuf⟩ := Option.isSome_iff_exists.1 h
    refine (finishArea_final_spec ⟨hi, by rw [hready, h], hbuf⟩).imp ?_
    rintro err s1 (⟨herr, h1⟩ | hf)
    · refine Or.inl ⟨herr, ⟨h1.calm, h1.inoTree, h1.objects, fun l hl hl' => ?_, fun l hl => ?_⟩,
        h1.area⟩
      · rw [h1.isOpen, if_pos (by omega)]
      · rw [h1.isOpen, if_neg (by omega)]
    · exact Or.inr hf
  · refine Or.inl ⟨rfl, ⟨.refl, rfl, rfl, fun l hl hl' => ?_, fun _ _ => rfl⟩, rfl⟩
    obtain rfl : l = i := by omega
    rw [hready]
    simpa using h

theorem flushAreas_spec : ∀ (n i : Nat) (s : Sb), i + n = noAreas →
    (∀ l, i ≤ l → isOpen l s.trace = (s.area l).buf.isSome) →
    Wp (flushAreas c n i)
      (fun r s' => r = 0 ∧ AreasClosed c n i s s' ∨ r = - EIO ∧ Failed c s s')
      (fun _ s' => Halted c s s') s := by
  intro n
  induction n with
  | zero =>
    intro i s _ _
    exact Or.inl ⟨rfl, .refl, rfl, rfl, fun l _ _ => by omega, fun _ _ => rfl⟩
  | succ n ih =>
    intro i s hi hready
    unfold flushAreas
    rw [wp_bind, wp_get]
    -- the two branches of the test go on alike
    have hnext : ∀ (err : Int) (s1 : Sb), (err = 0 ∧ AreasClosed c 1 i s s1 ∧ s1.area = s.area) ∨
        err = - EIO ∧ Failed c s s1 →
        Wp (if err ≠ 0 then pure err else flushAreas c n (i + 1))
          (fun r s' => r = 0 ∧ AreasClosed c (n + 1) i s s' ∨ r = - EIO ∧ Failed c s s')
          (fun _ s' => Halted c s s') s1 := by
      rintro err s1 (⟨rfl, h1, harea⟩ | ⟨rfl, hf⟩)
      · rw [if_neg (by decide)]
        refine (ih (i + 1) s1 (by omega) fun l hl => ?_).mono ?_ fun _ _ => h1.calm.halted
        · rw [h1.others l (by omega), harea, hready l (by omega)]
        · rintro r s2 (⟨hr, h2⟩ | ⟨hr, hf⟩)
          · refine Or.inl ⟨hr, h1.calm.trans h2.calm, h2.inoTree.trans h1.inoTree,
              h2.objects.trans h1.objects, fun l hl hl' => ?_, fun l hl => ?_⟩
            · rcases Nat.eq_or_lt_of_le hl with rfl | hlt
              · rw [h2.others i (by omega), h1.closed i (Nat.le_refl _) (by omega)]
              · exact h2.closed l hlt (by omega)
            · rw [h2.others l (by omega), h1.others l (by omega)]
          · exact Or.inr ⟨hr, h1.calm.failed hf⟩
      · rw [if_pos (by decide)]
        exact Or.inr ⟨rfl, hf⟩
    have hfinish := finishOpened_spec (c := c) (by omega) (hready i (Nat.le_refl _))
    rw [wp_ite] at hfinish ⊢
    exact ⟨fun h => (hfinish.1 h).bind hnext, fun h => (hfinish.2 h).bind hnext⟩

/-- `flush_segments` closes all areas. -/
theorem flushSegments_spec (hready : Ready s) :
    Wp (flushSegments c)
      (fun r s' => r = 0 ∧ AreasClosed c noAreas 0 s s' ∨ r = - EIO ∧ Failed c s s')
      (fun _ s' => Halted c s s') s :=
  flushAreas_spec noAreas 0 s (Nat.zero_add _) fun l _ => hready l

/-- The journal segments are taken and reserved. -/
theorem prepareJournalLoop_spec : ∀ (n i : Nat) (s : Sb),
    Wp (prepareJournalLoop c n i) (fun _ s' => Ran c [] s s' ∧ s'.inoTree = s.inoTree)
      (fun _ s' => Halted c s s') s := by
  intro n
  induction n with
  | zero => exact fun i s => ⟨.refl c s, rfl⟩
  | succ n ih =>
    intro i s
    unfold prepareJournalLoop
    refine (getSegment_spec c s).seq ?_ fun e s2 ⟨s1, h, h1⟩ => .of_turns h h1
    rintro segno s2 ⟨s1, hbad, ht⟩
    have hcalm := Calm.of_badTurns hbad
    have hsame := (SameStore.of_badTurns hbad).trans ht.sameStore
    rw [wp_ite]
    refine ⟨fun _ => hcalm.halted ⟨s1, .refl, .taken s2.journalSeg ht⟩, fun _ => ?_⟩
    unfold reserveEntry
    rw [wp_bind, wp_modify, wp_bind]
    refine wp_setEntry (fun hseg => ?_) (hcalm.halted ⟨s1, .refl, .taken _ ht⟩)
    have hstep := hcalm.trans
      (.step (.reserve (Function.update s2.journalSeg i segno) ht hseg ⟨i, rfl⟩))
    have hran : Ran c [] s { s2 with
        journalSeg := Function.update s2.journalSeg i segno
        segmentEntry := Function.update s2.segmentEntry segno ⟨ecLevel 1 0, reserved⟩ } :=
      ⟨hstep, fun hready l => by
        dsimp only
        rw [hsame.isOpen, hsame.area, hready], hsame.objects⟩
    refine (ih (i + 1) _).mono ?_ fun _ _ => hstep.halted
    rintro - s3 ⟨h3, hino⟩
    exact ⟨by simpa using hran.trans h3, hino.trans hsame.inoTree⟩

theorem prepareJournal_spec (s : Sb) :
    Wp (prepareJournal c) (fun _ s' => Ran c [] s s' ∧ s'.inoTree = s.inoTree)
      (fun _ s' => Halted c s s') s :=
  prepareJournalLoop_spec c.noJournalSegs 0 s

end Flush

/-! ## From `prepare_journal` to `flush_segments` -/

/-- The run from `prepare_journal` to `flush_segments`: the objects of the segment file, the inode
of the root directory, and no area open in the end. -/
structure StoreRan (c : Cfg) (s s' : Sb) : Prop where
  calm : Calm c s s'
  closed : ∀ l, l < noAreas → isOpen l s'.trace = false
  objects : ∃ new root, objects s'.trace = root :: (new ++ objects s.trace) ∧
    SegfileObjs c s' new ∧ root.call = inodeCall inoRoot (inodeAt s' inoRoot)

/-- How a run ends that is not successful: stopped, or with the message about a failed write. -/
def Ended (c : Cfg) (e : Stop) (s s' : Sb) : Prop :=
  Halted c s s' ∨ (∃ msg, e = .fail msg) ∧ Failed c s s'

section Store

variable {c : Cfg} {s s1 s' : Sb} {e : Stop}

theorem Calm.ended (h : Calm c s s1) (h1 : Ended c e s1 s') : Ended c e s s' :=
  h1.imp h.halted fun ⟨he, hf⟩ => ⟨he, h.failed hf⟩

/-- `fail(msg)` is called when the function returns an error. -/
theorem orFail_spec {msg : String} {m : MkfsM Int} {P : Sb → Prop}
    (h : Wp m (fun r s' => r = 0 ∧ P s' ∨ r = - EIO ∧ Failed c s s') (fun _ s' => Halted c s s') s) :
    Wp (orFail msg m) (fun _ s' => P s') (fun e s' => Ended c e s s') s := by
  unfold orFail
  refine h.seq ?_ fun _ _ h => Or.inl h
  rintro r s1 (⟨rfl, hp⟩ | ⟨rfl, hf⟩)
  · rw [if_neg (by decide)]
    exact hp
  · rw [if_pos (by decide)]
    exact Or.inr ⟨⟨msg, rfl⟩, hf⟩

theorem SegfileObjs.congr {new : List Obj} (h : SegfileObjs c s new)
    (hat : inodeAt s' inoSegfile = inodeAt s inoSegfile) : SegfileObjs c s' new := by
  obtain ⟨blocks, indirect, o, hnew, hb, hi, ho⟩ := h.split
  exact ⟨blocks, indirect, o, hnew, hb, hi, by rw [ho, hat]⟩

/-- What `mkfsStore` does after `prepare_journal`. -/
theorem storeFiles_spec (hready : Ready s) :
    Wp (do
        orFail "could not write segment file" (writeSegmentFile c)
        orFail "could not create root inode" (writeRootdir c)
        orFail "could not write segments" (flushSegments c))
      (fun _ s' => StoreRan c s s') (fun e s' => Ended c e s s') s := by
  refine (orFail_spec (writeSegmentFile_spec hready)).seq ?_ fun _ _ h => h
  rintro - s1 ⟨new, h1, hnew⟩
  refine (orFail_spec (writeRootdir_spec (h1.ready hready))).seq ?_ fun _ _ => h1.calm.ended
  rintro - s2 ⟨root, h2, hroot, hseg⟩
  have h12 := h1.trans h2
  refine (orFail_spec (flushSegments_spec (h12.ready hready))).mono ?_ fun _ _ => h12.calm.ended
  intro _ s3 h3
  have hat : inodeAt s3 = inodeAt s2 := by
    unfold inodeAt
    rw [h3.inoTree]
  refine ⟨h12.calm.trans h3.calm, fun l hl => h3.closed l (Nat.zero_le _) (by omega), new, root,
    ?_, hnew.congr (by rw [hat, hseg]), by rw [hat, hroot]⟩
  rw [h3.objects, h12.objects]
  simp

theorem StoreRan.of_ran (h : Ran c [] s s1) (h1 : StoreRan c s1 s') : StoreRan c s s' := by
  obtain ⟨new, root, hobjs, h2⟩ := h1.objects
  exact ⟨h.calm.trans h1.calm, h1.closed, new, root, by rw [hobjs, h.objects, List.nil_append], h2⟩

theorem mkfsStore_spec (hready : Ready s) :
    Wp (mkfsStore c) (fun _ s' => StoreRan c s s') (fun e s' => Ended c e s s') s := by
  unfold mkfsStore
  refine (prepareJournal_spec s).seq ?_ fun _ _ h => Or.inl h
  rintro - s1 ⟨h1, -⟩
  exact (storeFiles_spec (h1.ready hready)).mono (fun _ _ => StoreRan.of_ran h1)
    fun _ _ => h1.calm.ended

end Store

end Logfs.Mkfs
