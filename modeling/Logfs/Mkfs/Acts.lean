import Logfs.Mkfs.Steps

/-!
# Every function is a run of steps

Each function of `segment.c` and `readwrite.c` either returns after a run in which
nothing failed, or returns `-EIO` after the write that failed, or stops.
-/

namespace Logfs.Mkfs

open Relation (ReflTransGen)

section Runs

variable {c : Cfg} {s s1 s' : Sb}

theorem Calm.trans (h : Calm c s s1) (h1 : Calm c s1 s') : Calm c s s' := ReflTransGen.trans h h1

theorem Calm.step (h : Step c s s') : Calm c s s' := .single (Or.inl h)

theorem Calm.overrun (h : Overrun c s s') : Calm c s s' := .single (Or.inr h)

theorem Calm.halted (h : Calm c s s1) (h1 : Halted c s1 s') : Halted c s s' := by
  obtain ⟨s2, h2, hh⟩ := h1
  exact ⟨s2, h.trans h2, hh⟩

theorem Calm.failed (h : Calm c s s1) (h1 : Failed c s1 s') : Failed c s s' := by
  obtain ⟨s2, h2, hf⟩ := h1
  exact ⟨s2, h.trans h2, hf⟩

theorem Halted.refl (c : Cfg) (s : Sb) : Halted c s s := ⟨s, .refl, .here⟩

theorem Calm.of_badTurns (h : ReflTransGen (BadTurn c) s s1) : Calm c s s1 :=
  ReflTransGen.mono (fun _ _ hb => Or.inl (Step.bad hb)) _ _ h

theorem Halted.of_turns (h : ReflTransGen (BadTurn c) s s1) (h1 : s' = s1 ∨ CutTurn c s1 s') :
    Halted c s s' := by
  refine ⟨s1, .of_badTurns h, ?_⟩
  rcases h1 with rfl | h1
  · exact .here
  · exact .turn h1

end Runs

/-! ## What stays -/

/-- Turns of `get_segment` do not touch areas, inodes and objects. -/
structure SameStore (s s' : Sb) : Prop where
  usedBytes : s'.usedBytes = s.usedBytes
  area : s'.area = s.area
  inoTree : s'.inoTree = s.inoTree
  journalSeg : s'.journalSeg = s.journalSeg
  isOpen : ∀ l, isOpen l s'.trace = isOpen l s.trace
  objects : objects s'.trace = objects s.trace

section Same

variable {c : Cfg} {s s1 s' : Sb} {segno : Nat}

theorem SameStore.trans (h : SameStore s s1) (h1 : SameStore s1 s') : SameStore s s' :=
  ⟨h1.usedBytes.trans h.usedBytes, h1.area.trans h.area, h1.inoTree.trans h.inoTree,
    h1.journalSeg.trans h.journalSeg, fun l => (h1.isOpen l).trans (h.isOpen l), h1.objects.trans h.objects⟩

theorem BadTurn.sameStore (h : BadTurn c s s') : SameStore s s' := by
  rw [h.same]
  exact ⟨rfl, rfl, rfl, rfl, fun _ => rfl, rfl⟩

theorem Taken.sameStore (h : Taken c segno s s') : SameStore s s' := by
  rw [h.same]
  exact ⟨rfl, rfl, rfl, rfl, fun _ => rfl, rfl⟩

theorem SameStore.of_badTurns (h : ReflTransGen (BadTurn c) s s1) : SameStore s s1 := by
  induction h with
  | refl => exact ⟨rfl, rfl, rfl, rfl, fun _ => rfl, rfl⟩
  | tail _ hb ih => exact ih.trans hb.sameStore

end Same

/-! ## Areas -/

/-- The area is open and has room for a block. -/
structure Opened (c : Cfg) (l : Nat) (s s' : Sb) : Prop where
  calm : Calm c s s'
  ready : Ready s'
  inoTree : s'.inoTree = s.inoTree
  objects : objects s'.trace = objects s.trace
  opened : isOpen l s'.trace = true
  room : (s'.area l).usedBytes + objectHeadersize + blocksize ≤ c.segsize

/-- The area has been written for the last time. -/
structure Closed (c : Cfg) (l : Nat) (s s' : Sb) : Prop where
  calm : Calm c s s'
  area : s'.area = s.area
  inoTree : s'.inoTree = s.inoTree
  objects : objects s'.trace = objects s.trace
  isOpen : ∀ l', isOpen l' s'.trace = if l = l' then false else isOpen l' s.trace

section Areas

variable {c : Cfg} {s : Sb} {l : Nat} {buf : Buf}

theorem initArea'_spec (hl : l < noAreas) (hclosed : isOpen l s.trace = false)
    (hready : ∀ l', l ≠ l' → isOpen l' s.trace = (s.area l').buf.isSome) :
    Wp (initArea' c l) (fun _ s' => Opened c l s s') (fun _ s' => Halted c s s') s := by
  unfold initArea'
  rw [wp_bind]
  refine (getSegment_spec c s).mono ?_ ?_
  · rintro segno s2 ⟨s1, hbad, ht⟩
    rw [wp_bind, wp_setArea, wp_note]
    have hs1 := SameStore.of_badTurns hbad
    have hs2 := hs1.trans ht.sameStore
    have hcalm : Calm c s1 { s2 with
        area := Function.update s2.area l (openedArea c l segno)
        trace := .opened l segno :: s2.trace } := by
      rcases Nat.lt_or_ge segno c.noSegs with hseg | hseg
      · exact .step (.fresh hl (by rw [hs1.isOpen, hclosed]) ht hseg)
      · exact .overrun (.mk hl (by rw [hs1.isOpen, hclosed]) ht hseg)
    refine ⟨(Calm.of_badTurns hbad).trans hcalm, fun l' => ?_, hs2.inoTree, hs2.objects, ?_, ?_⟩
    · dsimp only [isOpen]
      by_cases h : l = l'
      · subst h
        rw [if_pos rfl, Function.update_self]
        rfl
      · rw [if_neg h, Function.update_of_ne (Ne.symm h), hs2.isOpen, hs2.area, hready l' h]
    · dsimp only [isOpen]
      exact if_pos rfl
    · dsimp only
      rw [Function.update_self]
      have := c.two_blocks_le
      simp only [segmentHeadersize, objectHeadersize, blocksize, blockshift]
      omega
  · rintro e s2 ⟨s1, hbad, h1⟩
    exact .of_turns hbad h1

/-- `finish_area` writes the area and sets the entry before it takes a new segment. -/
theorem finishArea_rule {final : Bool} {Q : Int → Sb → Prop} {E : Stop → Sb → Prop}
    (hw : Writes l buf s)
    (hnext : ∀ s1, Closed c l s s1 →
      Wp (if final then pure 0 else do initArea' c l; pure 0) Q E s1)
    (hfail : ∀ s', Failed c s s' → Q (- EIO) s') (hstop : ∀ e s', Halted c s s' → E e s') :
    Wp (finishArea c l final) Q E s := by
  unfold finishArea
  rw [wp_bind, wp_get]
  dsimp only
  rw [hw.buf_eq]
  refine Wp.bind (Q := fun err s1 =>
      err = 0 ∧ Did [.done (areaWrite c l (s.area l) buf) true,
        .issue (areaWrite c l (s.area l) buf)] ((s.area l).segno * c.segsize) c.segsize buf s s1 ∨
      err = - EIO ∧ Failed c s s1) ?_ ?_
  · refine (devWrite_spec _ _ _ _ s).mono ?_ ?_
    · rintro err s1 (⟨herr, hd⟩ | ⟨herr, n, hn, hd⟩)
      · exact Or.inl ⟨herr, hd⟩
      · exact Or.inr ⟨herr, s, .refl, .mk hw hn hd⟩
    · rintro e s1 ⟨n, hn, hd⟩
      exact hstop e s1 ⟨s, .refl, .cut hw hn hd⟩
  · rintro err s1 (⟨rfl, hd⟩ | ⟨rfl, hf⟩)
    · rw [if_neg (by decide), wp_bind]
      refine wp_setEntry (fun hseg => ?_) (hstop _ _ ⟨s, .refl, .wrote hw hd⟩)
      rw [wp_bind, wp_note]
      have hclose := Calm.step (.close hw hseg hd)
      have hsame := hd.same
      refine hnext _ ⟨hclose, ?_, ?_, ?_, fun l' => ?_⟩
      · rw [hsame]
      · rw [hsame]
      · rw [hsame]
        rfl
      · rw [hsame]
        dsimp only [List.cons_append, List.nil_append, isOpen]
    · rw [if_pos (by decide)]
      exact hfail s1 hf

/-- The last write of an area. -/
theorem finishArea_final_spec (hw : Writes l buf s) :
    Wp (finishArea c l true) (fun err s' => err = 0 ∧ Closed c l s s' ∨ err = - EIO ∧ Failed c s s')
      (fun _ s' => Halted c s s') s :=
  finishArea_rule hw (fun _ h => Or.inl ⟨rfl, h⟩) (fun _ h => Or.inr ⟨rfl, h⟩) fun _ _ h => h

/-- An area that was full gets a new segment. -/
theorem finishArea_next_spec (hw : Writes l buf s) (hready : Ready s) :
    Wp (finishArea c l false)
      (fun err s' => err = 0 ∧ Opened c l s s' ∨ err = - EIO ∧ Failed c s s')
      (fun _ s' => Halted c s s') s := by
  refine finishArea_rule hw (fun s1 h => ?_) (fun _ h => Or.inr ⟨rfl, h⟩) fun _ _ h => h
  rw [if_neg (by decide), wp_bind]
  refine (initArea'_spec hw.lt ?_ fun l' hl' => ?_).mono ?_ ?_
  · rw [h.isOpen, if_pos rfl]
  · rw [h.isOpen, if_neg hl', h.area, hready]
  · intro _ s2 h2
    rw [wp_pure]
    exact Or.inl ⟨rfl, h.calm.trans h2.calm, h2.ready, h2.inoTree.trans h.inoTree,
      h2.objects.trans h.objects, h2.opened, h2.room⟩
  · intro e s2 h2
    exact h.calm.halted h2

end Areas

/-! ## Objects -/

/-- The arguments of a call of `logfs_segment_write`. -/
structure Call where
  type : ObjType
  ino : Nat
  bix : Nat
  level : Nat
  data : Buf

def Obj.call (o : Obj) : Call := ⟨o.type, o.ino, o.bix, o.level, o.data⟩

/-- One object has been appended. -/
structure Stored (c : Cfg) (o : Obj) (s s' : Sb) : Prop where
  calm : Calm c s s'
  ready : Ready s'
  objects : objects s'.trace = o :: objects s.trace
  inoTree : s'.inoTree = growTree s.inoTree o.ino o.size

section Objects

variable {c : Cfg} {s : Sb}

theorem wp_growInode {ino len : Nat} {Q : Unit → Sb → Prop} {E : Stop → Sb → Prop}
    (h : Q () { s with
      inoTree := growTree s.inoTree ino len
      usedBytes := (s.usedBytes + len) % 2 ^ 64 }) : Wp (growInode ino len) Q E s := by
  unfold growInode findOrCreateInode modifyInode
  rw [wp_bind, wp_bind, wp_get]
  cases hi : s.inoTree.get ino with
  | none =>
    dsimp only
    rw [wp_bind, wp_set, wp_pure, wp_bind, wp_modify, wp_modify]
    dsimp only
    rw [OrdMap.get_insert_self]
    dsimp only
    rw [OrdMap.insert_insert]
    simpa only [growTree, hi, Option.getD_none] using h
  | some i =>
    dsimp only
    rw [wp_pure, wp_bind, wp_modify, wp_modify, hi]
    simpa only [growTree, hi, Option.getD_some] using h

/-- An object is appended to an area that is open and has room. -/
theorem stored_of_opened {s1 : Sb} {o : Obj} (h : Opened c o.area s s1)
    (harea : o.area = areaOf o.ino o.level) (hlt : o.area < noAreas)
    (hsegno : o.segno = (s1.area o.area).segno) (hused : o.used = (s1.area o.area).usedBytes) :
    Stored c o s (appendTo c o s1) where
  calm := h.calm.trans (Calm.step (.append ⟨harea, hlt, hsegno, hused, h.opened, hused ▸ h.room⟩))
  ready l := by
    have hl := h.ready l
    unfold appendTo
    dsimp only [isOpen]
    by_cases hlo : l = o.area
    · subst hlo
      rw [Function.update_self, hl]
      simp [copyObj, copybuf]
    · rw [Function.update_of_ne hlo, hl]
  objects := congrArg (o :: ·) h.objects
  inoTree := by rw [← h.inoTree]; rfl

/-- `logfs_segment_write` appends one object, and returns its place. -/
theorem logfsSegmentWrite_spec (data : Buf) (type : ObjType) (ino bix level : Nat)
    (hready : Ready s) :
    Wp (logfsSegmentWrite c data type ino bix level)
      (fun r s' => (∃ o, o.call = ⟨type, ino, bix, level, data⟩ ∧ r = (o.ofs c : Int) ∧
        Stored c o s s') ∨ r = - EIO ∧ Failed c s s')
      (fun _ s' => Halted c s s') s := by
  unfold logfsSegmentWrite
  dsimp only
  rw [wp_ite]
  refine ⟨fun _ => .refl c s, fun hl => ?_⟩
  have hl : areaOf ino level < noAreas := not_not.1 hl
  generalize hla : areaOf ino level = l at hl ⊢
  -- `init_area`
  rw [wp_bind]
  refine Wp.mono (Q := fun _ s1 => Calm c s s1 ∧ Ready s1 ∧ s1.inoTree = s.inoTree ∧
      objects s1.trace = objects s.trace ∧ isOpen l s1.trace = true)
    (E := fun _ s1 => Halted c s s1) ?_ ?_ fun _ _ h => h
  · unfold initArea
    rw [wp_bind, wp_get, wp_ite]
    refine ⟨fun h => ⟨.refl, hready, rfl, rfl, by rw [hready, h]⟩, fun h => ?_⟩
    have hclosed : isOpen l s.trace = false := by
      rw [hready]
      simpa using h
    refine (initArea'_spec hl hclosed fun l' _ => hready l').imp ?_
    exact fun _ s1 h1 => ⟨h1.calm, h1.ready, h1.inoTree, h1.objects, h1.opened⟩
  rintro _ s1 ⟨hcalm, hready1, hino, hobj, hopen⟩
  -- the area is written when a block might not fit; both branches go on alike
  rw [wp_bind, wp_get, wp_ite]
  refine ⟨fun _ => Wp.bind (Q := fun err s2 =>
      err = 0 ∧ Opened c l s s2 ∨ err = - EIO ∧ Failed c s s2) ?_ ?_, fun hroom => Wp.bind (Q :=
      fun err s2 => err = 0 ∧ Opened c l s s2 ∨ err = - EIO ∧ Failed c s s2) ?_ ?_⟩
  · obtain ⟨buf, hbuf⟩ := Option.isSome_iff_exists.1 ((hready1 l).symm.trans hopen)
    refine (finishArea_next_spec ⟨hl, hopen, hbuf⟩ hready1).mono ?_ fun _ _ => hcalm.halted
    rintro err s2 (⟨herr, h2⟩ | ⟨herr, h2⟩)
    · exact Or.inl ⟨herr, hcalm.trans h2.calm, h2.ready, h2.inoTree.trans hino,
        h2.objects.trans hobj, h2.opened, h2.room⟩
    · exact Or.inr ⟨herr, hcalm.failed h2⟩
  rotate_left
  · exact Or.inl ⟨rfl, hcalm, hready1, hino, hobj, hopen, by omega⟩
  all_goals
    rintro err s2 (⟨rfl, h2⟩ | ⟨rfl, hf⟩)
    · rw [if_neg (by decide), wp_bind, wp_get, wp_bind, wp_setArea, wp_bind, wp_note, wp_bind]
      refine wp_growInode ?_
      rw [wp_pure]
      let o : Obj :=
        ⟨l, (s2.area l).segno, (s2.area l).usedBytes, type, ino, bix, level, data⟩
      exact Or.inl ⟨o, rfl, rfl, stored_of_opened (o := o) h2 hla.symm hl rfl rfl⟩
    · rw [if_pos (by decide), wp_pure]
      exact Or.inr ⟨rfl, hf⟩

end Objects

/-! ## Inodes -/

/-- The inode of a number, all zero when there is none yet. -/
def inodeAt (s : Sb) (ino : Nat) : Inode := (s.inoTree.get ino).getD .zero

def Inode.grow (i : Inode) (len : Nat) : Inode :=
  { i with di := { i.di with usedBytes := (len + i.di.usedBytes) % 2 ^ 64 } }

/-- A run that has appended these objects, newest first. -/
structure Ran (c : Cfg) (new : List Obj) (s s' : Sb) : Prop where
  calm : Calm c s s'
  ready : Ready s → Ready s'
  objects : objects s'.trace = new ++ objects s.trace

section Inodes

variable {c : Cfg} {s s1 s' : Sb} {ino : Nat} {new new1 : List Obj}

theorem Ran.refl (c : Cfg) (s : Sb) : Ran c [] s s := ⟨.refl, id, rfl⟩

theorem Ran.trans (h : Ran c new s s1) (h1 : Ran c new1 s1 s') : Ran c (new1 ++ new) s s' :=
  ⟨h.calm.trans h1.calm, h1.ready ∘ h.ready, by
    rw [h1.objects, h.objects, List.append_assoc]⟩

theorem Stored.ran {o : Obj} (h : Stored c o s s') : Ran c [o] s s' :=
  ⟨h.calm, fun _ => h.ready, h.objects⟩

theorem Ran.of_step (h : Step c s s') (harea : s'.area = s.area) (htrace : s'.trace = s.trace) :
    Ran c [] s s' :=
  ⟨.step h, fun hr l => by rw [htrace, harea, hr], by rw [htrace]; rfl⟩

theorem isSome_get_insert {m : OrdMap Nat Inode} {k : Nat} {v : Inode}
    (hi : (m.get ino).isSome) : ((m.insert k v).get ino).isSome := by
  rw [OrdMap.get_insert]
  split_ifs
  · rfl
  · exact hi

/-- Inodes are never deleted. -/
theorem Calm.inode_isSome (h : Calm c s s') (hi : (s.inoTree.get ino).isSome) :
    (s'.inoTree.get ino).isSome := by
  induction h with
  | refl => exact hi
  | tail _ hstep ih =>
    rcases hstep with hstep | hstep
    · cases hstep with
      | create => exact isSome_get_insert ih
      | modify => exact isSome_get_insert ih
      | bad h => rw [h.sameStore.inoTree]; exact ih
      | reserve _ h => rw [h.sameStore.inoTree]; exact ih
      | fresh _ _ h => rw [h.sameStore.inoTree]; exact ih
      | append => exact isSome_get_insert ih
      | close _ _ h => rw [h.same]; exact ih
    · cases hstep with
      | mk _ _ h => rw [h.sameStore.inoTree]; exact ih

theorem inodeAt_insert {s : Sb} (ino : Nat) {i : Inode} (h : s'.inoTree = s.inoTree.insert ino i) :
    inodeAt s' = Function.update (inodeAt s) ino i := by
  funext x
  unfold inodeAt
  rw [h, OrdMap.get_insert, Function.update_apply]
  split_ifs <;> rfl

theorem Stored.inodeAt {o : Obj} (h : Stored c o s s') :
    inodeAt s' = Function.update (inodeAt s) o.ino ((Mkfs.inodeAt s o.ino).grow o.size) :=
  inodeAt_insert _ h.inoTree

/-- `find_or_create_inode` changes no inode. -/
theorem findOrCreateInode_spec (c : Cfg) (ino : Nat) (s : Sb) {E : Stop → Sb → Prop} :
    Wp (findOrCreateInode ino) (fun i s' => i = inodeAt s ino ∧ Ran c [] s s' ∧
      inodeAt s' = inodeAt s ∧ (s'.inoTree.get ino).isSome) E s := by
  unfold findOrCreateInode
  rw [wp_bind, wp_get]
  cases hi : s.inoTree.get ino with
  | none =>
    dsimp only
    rw [wp_bind, wp_set, wp_pure]
    have hz : inodeAt s ino = .zero := by rw [inodeAt, hi]; rfl
    refine ⟨hz.symm, .of_step (.create hi) rfl rfl, ?_, by rw [OrdMap.get_insert_self]; rfl⟩
    rw [inodeAt_insert (s := s) _ rfl, ← hz, Function.update_eq_self]
  | some i =>
    dsimp only
    rw [wp_pure, hi]
    exact ⟨by rw [inodeAt, hi]; rfl, .refl c s, rfl, rfl⟩

/-- A change of an inode that exists and that is not charged for it. -/
theorem modifyInode_spec (c : Cfg) {f : Inode → Inode} {E : Stop → Sb → Prop}
    (hi : (s.inoTree.get ino).isSome) (hf : ∀ i, (f i).di.usedBytes = i.di.usedBytes) :
    Wp (modifyInode ino f) (fun _ s' => Ran c [] s s' ∧
      inodeAt s' = Function.update (inodeAt s) ino (f (inodeAt s ino))) E s := by
  obtain ⟨i, hi⟩ := Option.isSome_iff_exists.1 hi
  unfold modifyInode
  rw [wp_modify, hi]
  have hat : inodeAt s ino = i := by rw [inodeAt, hi]; rfl
  exact ⟨.of_step (.modify hi (hf i)) rfl rfl, by rw [hat]; exact inodeAt_insert _ rfl⟩

end Inodes

/-! ## Files -/

section Charges

variable (i : Inode) (bix level slot ofs : Nat)

@[simp] theorem setData_usedBytes : (setData i bix ofs).di.usedBytes = i.di.usedBytes := rfl

@[simp] theorem setTree_di (tree : OrdMap Nat Block) : (setTree i level tree).di = i.di := rfl

@[simp] theorem findOrCreateBlock_di : (findOrCreateBlock i bix level).di = i.di := by
  unfold findOrCreateBlock
  split <;> rfl

@[simp] theorem setSlot_di : (setSlot i bix level slot ofs).di = i.di := by
  unfold setSlot
  split <;> rfl

@[simp] theorem growInodeHeight_usedBytes :
    (growInodeHeight i bix level).di.usedBytes = i.di.usedBytes := by
  unfold growInodeHeight
  split_ifs <;> rfl

end Charges

/-- The inode after a block of it has been stored at `ofs`, in `len` bytes. -/
def Inode.stored (i : Inode) (bix level ofs len : Nat) : Inode :=
  if level = 0 ∧ bix < i0Blocks then setData (i.grow len) bix ofs
  else
    let parent := bix ||| bixmask (level + 1)
    setSlot ((findOrCreateBlock (growInodeHeight i bix level) parent (level + 1)).grow len) parent
      (level + 1) (getBits bix level) ofs

/-- One block of a file has been stored. -/
structure Filed (c : Cfg) (ca : Call) (s s' : Sb) : Prop where
  obj : ∃ o : Obj, o.call = ca ∧ Ran c [o] s s' ∧
    inodeAt s' = Function.update (inodeAt s) ca.ino
      ((inodeAt s ca.ino).stored ca.bix ca.level (o.ofs c) o.size)

section Files

variable {c : Cfg} {s : Sb} {ino bix level : Nat} {type : ObjType} {buf : Buf}

/-- An offset is not an error. -/
theorem ofs_not_neg (o : Obj) : ¬ ((o.ofs c : Nat) : Int) < 0 := by omega

theorem writeDirect_spec (hready : Ready s) (hbix : bix < i0Blocks) :
    Wp (writeDirect c ino bix type buf)
      (fun r s' => r = 0 ∧ Filed c ⟨type, ino, bix, 0, buf⟩ s s' ∨ r = - EIO ∧ Failed c s s')
      (fun _ s' => Halted c s s') s := by
  unfold writeDirect
  refine (logfsSegmentWrite_spec buf type ino bix 0 hready).bind ?_
  rintro r s1 (⟨o, ho, rfl, h1⟩ | ⟨rfl, hf⟩)
  · rw [if_neg (ofs_not_neg o), wp_bind]
    have hino : o.ino = ino := congrArg Call.ino ho
    have hat := h1.inodeAt
    rw [hino] at hat
    have hsome : (s1.inoTree.get ino).isSome := by
      rw [h1.inoTree, hino, growTree, OrdMap.get_insert_self]
      rfl
    refine (modifyInode_spec c hsome fun i => setData_usedBytes i bix _).imp ?_
    rintro - s2 ⟨h2, hat2⟩
    refine Or.inl ⟨rfl, o, ho, by simpa using h1.ran.trans h2, ?_⟩
    rw [hat2, hat, Function.update_idem, Function.update_self, Int.toNat_natCast]
    congr 1
    exact (if_pos ⟨rfl, hbix⟩).symm
  · exact Or.inr ⟨rfl, hf⟩

theorem writeLoop_spec (hready : Ready s) (hi : (s.inoTree.get ino).isSome) :
    Wp (writeLoop c ino bix level type buf)
      (fun r s' => (r = 0 ∧ ∃ o : Obj, o.call = ⟨type, ino, bix, level, buf⟩ ∧ Ran c [o] s s' ∧
        inodeAt s' = Function.update (inodeAt s) ino
          (setSlot ((findOrCreateBlock (inodeAt s ino) (bix ||| bixmask (level + 1))
            (level + 1)).grow o.size) (bix ||| bixmask (level + 1)) (level + 1)
            (getBits bix level) (o.ofs c))) ∨ r = - EIO ∧ Failed c s s')
      (fun _ s' => Halted c s s') s := by
  unfold writeLoop
  rw [wp_ite]
  refine ⟨fun _ => .refl c s, fun _ => ?_⟩
  refine (modifyInode_spec c hi fun i => by rw [findOrCreateBlock_di]).bind ?_
  rintro - s1 ⟨h1, hat1⟩
  refine (logfsSegmentWrite_spec buf type ino bix level (h1.ready hready)).seq ?_
    fun _ _ => h1.calm.halted
  rintro r s2 (⟨o, ho, rfl, h2⟩ | ⟨rfl, hf⟩)
  · rw [if_neg (ofs_not_neg o)]
    have hino : o.ino = ino := congrArg Call.ino ho
    have hat2 := h2.inodeAt
    rw [hino] at hat2
    refine (modifyInode_spec c (h2.calm.inode_isSome (h1.calm.inode_isSome hi)) fun i => by
      rw [setSlot_di]).bind ?_
    rintro - s3 ⟨h3, hat3⟩
    refine Or.inl ⟨rfl, o, ho, by simpa using h1.trans (h2.ran.trans h3), ?_⟩
    rw [hat3, hat2, hat1, Function.update_idem, Function.update_idem, Function.update_self,
      Function.update_self, Int.toNat_natCast]
  · exact Or.inr ⟨rfl, h1.calm.failed hf⟩

/-- `logfs_file_write` stores one block. -/
theorem logfsFileWrite_spec (hready : Ready s) :
    Wp (logfsFileWrite c ino bix level type buf)
      (fun r s' => r = 0 ∧ Filed c ⟨type, ino, bix, level, buf⟩ s s' ∨ r = - EIO ∧ Failed c s s')
      (fun _ s' => Halted c s s') s := by
  unfold logfsFileWrite
  refine (findOrCreateInode_spec c ino s).bind ?_
  rintro - s1 ⟨-, h1, hat1, hi1⟩
  rw [wp_ite]
  refine ⟨fun ⟨hlevel, hbix⟩ => ?_, fun hindirect => ?_⟩
  · subst hlevel
    refine (writeDirect_spec (h1.ready hready) hbix).mono ?_ fun _ _ => h1.calm.halted
    rintro r s2 (⟨hr, o, ho, h2, hat2⟩ | ⟨hr, hf⟩)
    · exact Or.inl ⟨hr, o, ho, by simpa using h1.trans h2, by rw [hat2, hat1]⟩
    · exact Or.inr ⟨hr, h1.calm.failed hf⟩
  · refine (modifyInode_spec c hi1 fun i => by rw [growInodeHeight_usedBytes]).bind ?_
    rintro - s2 ⟨h2, hat2⟩
    have h12 := h1.trans h2
    refine (writeLoop_spec (h12.ready hready) (h2.calm.inode_isSome hi1)).mono ?_
      fun _ _ => h12.calm.halted
    rintro r s3 (⟨hr, o, ho, h3, hat3⟩ | ⟨hr, hf⟩)
    · refine Or.inl ⟨hr, o, ho, by simpa using h12.trans h3, ?_⟩
      rw [hat3, hat2, hat1, Function.update_idem, Function.update_self]
      congr 1
      exact (if_neg hindirect).symm
    · exact Or.inr ⟨hr, h12.calm.failed hf⟩

end Files

end Logfs.Mkfs
