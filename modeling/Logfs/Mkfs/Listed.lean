import Logfs.Mkfs.Interrupted
import Logfs.Mkfs.Sequence

/-!
# The journal segments of the superblock

`prepare_journal` takes as many segments as the command line says, and `make_journal` writes
to the first of them.  With one to sixteen of them this is right; without any the journal
goes to segment 0, and with more than sixteen the arrays are too short.
-/

namespace Logfs.Mkfs

open Relation (ReflTransGen)

/-! ## What the object store leaves alone -/

/-- The superblocks and the journal segments have kept their places. -/
structure SamePlan (s s' : Sb) : Prop where
  journalSeg : s'.journalSeg = s.journalSeg
  sbOfs1 : s'.sbOfs1 = s.sbOfs1
  sbOfs2 : s'.sbOfs2 = s.sbOfs2

instance : Std.Refl SamePlan := ⟨fun _ => ⟨rfl, rfl, rfl⟩⟩

instance : IsTrans Sb SamePlan := ⟨fun _ _ _ h h1 =>
  ⟨h1.journalSeg.trans h.journalSeg, h1.sbOfs1.trans h.sbOfs1, h1.sbOfs2.trans h.sbOfs2⟩⟩

/-- The program leaves them where they are, however it ends. -/
abbrev KeepsPlan {α : Type} (m : MkfsM α) : Prop := Keeps (fun _ => True) SamePlan m

section Plan

variable {c : Cfg} {s s' : Sb} {ino level : Nat}

theorem SamePlan.refl (s : Sb) : SamePlan s s := ⟨rfl, rfl, rfl⟩

theorem SamePlan.trans {s1 : Sb} (h : SamePlan s s1) (h1 : SamePlan s1 s') : SamePlan s s' :=
  IsTrans.trans _ _ _ h h1

theorem KeepsPlan.modify {f : Sb → Sb} (h : ∀ s, SamePlan s (f s)) :
    KeepsPlan (modify f : MkfsM PUnit) := fun s _ => ⟨trivial, h s⟩

theorem getSegment_plan (c : Cfg) : KeepsPlan (getSegment c) := by
  have hturns : ∀ {s s1}, ReflTransGen (BadTurn c) s s1 → SamePlan s s1 := fun h => by
    induction h with
    | refl => exact .refl _
    | tail _ hb ih =>
      refine ih.trans ?_
      rw [hb.same]
      exact ⟨rfl, rfl, rfl⟩
  intro s _
  refine (getSegment_spec c s).mono ?_ ?_
  · rintro segno s2 ⟨s1, hbad, ht⟩
    refine ⟨trivial, (hturns hbad).trans ?_⟩
    rw [ht.same]
    exact ⟨rfl, rfl, rfl⟩
  · rintro e s2 ⟨s1, hbad, rfl | hcut⟩
    · exact ⟨trivial, hturns hbad⟩
    · refine ⟨trivial, (hturns hbad).trans ?_⟩
      rw [hcut.same]
      exact ⟨rfl, rfl, rfl⟩

theorem setEntry_plan (segno : Nat) (entry : SegEntry) : KeepsPlan (setEntry c segno entry) :=
  Keeps.ite (fun _ => KeepsPlan.modify fun _ => ⟨rfl, rfl, rfl⟩) fun _ => Keeps.throw _

theorem noteEvent_plan (e : Event) : KeepsPlan (noteEvent e) :=
  KeepsPlan.modify fun _ => ⟨rfl, rfl, rfl⟩

theorem setArea_plan (l : Nat) (a : Area) : KeepsPlan (setArea l a) :=
  KeepsPlan.modify fun _ => ⟨rfl, rfl, rfl⟩

theorem devWrite_plan (t : Target) (ofs size : Nat) (buf : Buf) :
    KeepsPlan (devWrite t ofs size buf) := by
  intro s _
  have hdid : ∀ {evs n s'}, Did evs ofs n buf s s' → SamePlan s s' := fun h => by
    rw [h.same]
    exact ⟨rfl, rfl, rfl⟩
  refine (devWrite_spec t ofs size buf s).mono ?_ ?_
  · rintro err s1 (⟨-, hd⟩ | ⟨-, n, -, hd⟩)
    · exact ⟨trivial, hdid hd⟩
    · exact ⟨trivial, hdid hd⟩
  · rintro e s1 ⟨n, -, hd⟩
    exact ⟨trivial, hdid hd⟩

theorem initArea'_plan (c : Cfg) (l : Nat) : KeepsPlan (initArea' c l) :=
  (getSegment_plan c).bind fun _ => (setArea_plan l _).bind fun _ => noteEvent_plan _

theorem initArea_plan (c : Cfg) (l : Nat) : KeepsPlan (initArea c l) :=
  Keeps.get_bind fun s hs =>
    Keeps.ite (fun _ => Keeps.pure ()) (fun _ => initArea'_plan c l) s hs

theorem finishArea_plan (c : Cfg) (l : Nat) (final : Bool) : KeepsPlan (finishArea c l final) := by
  refine Keeps.get_bind fun s hs => ?_
  dsimp only
  cases (s.area l).buf with
  | none => exact ⟨hs, .refl s⟩
  | some buf =>
    refine (devWrite_plan _ _ _ _).bind (fun err => ?_) s hs
    refine Keeps.ite (fun _ => Keeps.pure err) fun _ => (setEntry_plan _ _).bind fun _ => ?_
    refine (noteEvent_plan _).bind fun _ => Keeps.ite (fun _ => Keeps.pure 0) fun _ => ?_
    exact (initArea'_plan c l).bind fun _ => Keeps.pure 0

theorem findOrCreateInode_plan (ino : Nat) : KeepsPlan (findOrCreateInode ino) := by
  refine Keeps.get_bind fun s hs => ?_
  cases s.inoTree.get ino with
  | some i => exact ⟨hs, .refl s⟩
  | none => exact ⟨hs, rfl, rfl, rfl⟩

theorem modifyInode_plan (ino : Nat) (f : Inode → Inode) : KeepsPlan (modifyInode ino f) := by
  refine KeepsPlan.modify fun s => ?_
  cases s.inoTree.get ino with
  | some i => exact ⟨rfl, rfl, rfl⟩
  | none => exact .refl s

theorem growInode_plan (ino len : Nat) : KeepsPlan (growInode ino len) :=
  (findOrCreateInode_plan ino).bind fun _ => (modifyInode_plan ino _).bind fun _ =>
    KeepsPlan.modify fun _ => ⟨rfl, rfl, rfl⟩

theorem logfsSegmentWrite_plan (c : Cfg) (data : Buf) (type : ObjType) (ino bix level : Nat) :
    KeepsPlan (logfsSegmentWrite c data type ino bix level) := by
  refine Keeps.ite (fun _ => Keeps.throw Stop.wild) fun _ => (initArea_plan c _).bind fun _ => ?_
  have hstore : ∀ err : Int, KeepsPlan (if err ≠ 0 then pure err else do
      let s ← get
      let a := s.area (areaOf ino level)
      let o : Obj := ⟨areaOf ino level, a.segno, a.usedBytes, type, ino, bix, level, data⟩
      let bytes := peek data 0 (objLen type)
      setArea (areaOf ino level)
        (copybuf (copybuf a (objectHeader c.crc32 type ino bix bytes)) bytes)
      noteEvent (.append o)
      growInode ino (objectHeadersize + objLen type)
      pure (o.ofs c : Int)) := fun err => by
    refine Keeps.ite (fun _ => Keeps.pure err) fun _ => Keeps.get_bind fun s hs => ?_
    exact ((setArea_plan _ _).bind fun _ => (noteEvent_plan _).bind fun _ =>
      (growInode_plan ino _).bind fun _ => Keeps.pure _) s hs
  refine Keeps.get_bind fun s hs => ?_
  exact (Keeps.ite (fun _ => (finishArea_plan c _ false).bind hstore)
    fun _ => (Keeps.pure 0).bind hstore) s hs

theorem writeDirect_plan (c : Cfg) (ino bix : Nat) (type : ObjType) (buf : Buf) :
    KeepsPlan (writeDirect c ino bix type buf) :=
  (logfsSegmentWrite_plan c buf type ino bix 0).bind fun ofs => Keeps.ite
    (fun _ => Keeps.pure ofs) fun _ => (modifyInode_plan ino _).bind fun _ => Keeps.pure 0

theorem writeLoop_plan (c : Cfg) (ino bix level : Nat) (type : ObjType) (buf : Buf) :
    KeepsPlan (writeLoop c ino bix level type buf) := by
  refine Keeps.ite (fun _ => Keeps.throw Stop.wild) fun _ => (modifyInode_plan ino _).bind fun _ => ?_
  refine (logfsSegmentWrite_plan c buf type ino bix level).bind fun ofs => ?_
  exact Keeps.ite (fun _ => Keeps.pure ofs) fun _ =>
    (modifyInode_plan ino _).bind fun _ => Keeps.pure 0

theorem logfsFileWrite_plan (c : Cfg) (ino bix level : Nat) (type : ObjType) (buf : Buf) :
    KeepsPlan (logfsFileWrite c ino bix level type buf) := by
  refine (findOrCreateInode_plan ino).bind fun _ => Keeps.ite
    (fun _ => writeDirect_plan c ino bix type buf) fun _ => (modifyInode_plan ino _).bind fun _ => ?_
  exact writeLoop_plan c ino bix level type buf

theorem takeLast_plan (ino level : Nat) : KeepsPlan (takeLast ino level) := by
  refine (findOrCreateInode_plan ino).bind fun inode => ?_
  dsimp only
  cases (inode.blockTree level).get ((((inode.blockTree level).last).map Prod.fst).getD 0) with
  | none => exact Keeps.pure none
  | some block => exact (modifyInode_plan ino _).bind fun _ => Keeps.pure _

theorem flushLevel_plan (c : Cfg) (ino level : Nat) : ∀ n, KeepsPlan (flushLevel c ino level n) := by
  intro n
  induction n with
  | zero => exact Keeps.pure 0
  | succ n ih =>
    refine (takeLast_plan ino level).bind fun r => ?_
    cases r with
    | none => exact Keeps.pure 0
    | some e =>
      refine (logfsFileWrite_plan c ino e.1 level .block e.2.bytes).bind fun err => ?_
      exact Keeps.ite (fun _ => Keeps.pure err) fun _ => ih

theorem flushLevels_plan (c : Cfg) (ino : Nat) : ∀ n level,
    KeepsPlan (flushLevels c ino n level) := by
  intro n
  induction n with
  | zero => exact fun _ => Keeps.pure 0
  | succ n ih =>
    intro level
    refine (findOrCreateInode_plan ino).bind fun _ => (flushLevel_plan c ino level _).bind fun err => ?_
    exact Keeps.ite (fun _ => Keeps.pure err) fun _ => ih (level + 1)

theorem logfsFileFlush_plan (c : Cfg) (ino : Nat) : KeepsPlan (logfsFileFlush c ino) := by
  refine (findOrCreateInode_plan ino).bind fun inode => Keeps.ite (fun _ => Keeps.pure 0) fun _ => ?_
  refine (flushLevels_plan c ino _ _).bind fun err => Keeps.ite (fun _ => Keeps.pure err) fun _ => ?_
  refine (takeLast_plan ino _).bind fun r => ?_
  cases r with
  | none => exact Keeps.throw Stop.bug
  | some e =>
    refine (logfsSegmentWrite_plan c e.2.bytes .block ino e.1 _).bind fun ofs => ?_
    exact Keeps.ite (fun _ => Keeps.pure ofs) fun _ =>
      (modifyInode_plan ino _).bind fun _ => Keeps.pure 0

theorem writeInode_plan (c : Cfg) (ino : Nat) : KeepsPlan (writeInode c ino) :=
  (findOrCreateInode_plan ino).bind fun _ => logfsFileWrite_plan c inoMaster ino 0 .inode _

theorem writeSegmentBlocks_plan (c : Cfg) : ∀ n ofs, KeepsPlan (writeSegmentBlocks c n ofs) := by
  intro n
  induction n with
  | zero => exact fun _ => Keeps.pure 0
  | succ n ih =>
    intro ofs
    refine Keeps.ite (fun _ => ?_) fun _ => Keeps.pure 0
    refine (logfsFileWrite_plan c inoSegfile ofs 0 .block _).bind fun err => ?_
    exact Keeps.ite (fun _ => Keeps.pure err) fun _ => ih (ofs + 1)

theorem writeSegmentFile_plan (c : Cfg) : KeepsPlan (writeSegmentFile c) := by
  refine (findOrCreateInode_plan _).bind fun _ => (modifyInode_plan _ _).bind fun _ => ?_
  refine (writeSegmentBlocks_plan c _ _).bind fun err => Keeps.ite (fun _ => Keeps.pure err)
    fun _ => ?_
  refine (logfsFileFlush_plan c _).bind fun err => Keeps.ite (fun _ => Keeps.pure err) fun _ => ?_
  exact writeInode_plan c _

theorem writeRootdir_plan (c : Cfg) : KeepsPlan (writeRootdir c) :=
  (findOrCreateInode_plan _).bind fun _ => (modifyInode_plan _ _).bind fun _ => writeInode_plan c _

theorem flushAreas_plan (c : Cfg) : ∀ n i, KeepsPlan (flushAreas c n i) := by
  intro n
  induction n with
  | zero => exact fun _ => Keeps.pure 0
  | succ n ih =>
    intro i
    have hnext : ∀ err : Int, KeepsPlan (if err ≠ 0 then pure err else flushAreas c n (i + 1)) :=
      fun err => Keeps.ite (fun _ => Keeps.pure err) fun _ => ih (i + 1)
    refine Keeps.get_bind fun s hs => ?_
    exact (Keeps.ite (fun _ => (finishArea_plan c i true).bind hnext)
      fun _ => (Keeps.pure 0).bind hnext) s hs

theorem orFail_plan {msg : String} {m : MkfsM Int} (h : KeepsPlan m) : KeepsPlan (orFail msg m) :=
  h.bind fun _ => Keeps.ite (fun _ => Keeps.throw _) fun _ => Keeps.pure ()

/-- The files are written without touching the plan. -/
theorem storeFiles_plan (c : Cfg) : KeepsPlan (do
    orFail "could not write segment file" (writeSegmentFile c)
    orFail "could not create root inode" (writeRootdir c)
    orFail "could not write segments" (flushSegments c)) :=
  (orFail_plan (writeSegmentFile_plan c)).bind fun _ =>
    (orFail_plan (writeRootdir_plan c)).bind fun _ => orFail_plan (flushAreas_plan c _ _)

end Plan

/-! ## Segments that stay reserved -/

/-- A segment that was taken is reserved, and no area is open there. -/
structure Kept (x : Nat) (s : Sb) : Prop where
  lt : x < s.lastseg
  entry : (s.segmentEntry x).valid = reserved
  area : ∀ l, isOpen l s.trace = true → (s.area l).segno ≠ x

section Kept

variable {c : Cfg} {s s1 s' : Sb} {x segno : Nat}

theorem Kept.taken (hk : Kept x s) (h : Taken c segno s s1) (hseg : segno < c.noSegs) :
    Kept x s1 ∧ segno ≠ x := by
  have hlt := hk.lt
  have hlast := h.lastseg hseg
  have hsegno := h.segno_eq
  refine ⟨⟨by omega, ?_, fun l hl => ?_⟩, by omega⟩
  · rw [h.same]
    exact hk.entry
  · rw [h.sameStore.isOpen] at hl
    rw [h.sameStore.area]
    exact hk.area l hl

/-- Nothing the object store does takes the segment again. -/
theorem Step.kept (h : Step c s s') (hk : Kept x s) : Kept x s' := by
  cases h with
  | create => exact ⟨hk.lt, hk.entry, hk.area⟩
  | modify => exact ⟨hk.lt, hk.entry, hk.area⟩
  | bad h =>
    have hlt := hk.lt
    rw [h.same]
    refine ⟨Nat.lt_succ_of_lt hlt, ?_, hk.area⟩
    dsimp only
    rw [Function.update_of_ne (by omega)]
    exact hk.entry
  | reserve _ h hseg =>
    obtain ⟨h1, hne⟩ := hk.taken h hseg
    refine ⟨h1.lt, ?_, h1.area⟩
    dsimp only
    rw [Function.update_of_ne (Ne.symm hne)]
    exact h1.entry
  | @fresh l segno s1 _ _ h hseg =>
    obtain ⟨h1, hne⟩ := hk.taken h hseg
    refine ⟨h1.lt, h1.entry, fun l' hl' => ?_⟩
    dsimp only at hl' ⊢
    rw [isOpen] at hl'
    rw [Function.update_apply]
    split_ifs at hl' ⊢ with hl heq heq
    · exact hne
    · exact absurd hl.symm heq
    · exact absurd heq.symm hl
    · exact h1.area l' hl'
  | @append o _ =>
    refine ⟨hk.lt, hk.entry, fun l hl => ?_⟩
    have hold := hk.area l hl
    unfold appendTo
    dsimp only
    rw [Function.update_apply]
    split_ifs with heq
    · subst heq
      exact hold
    · exact hold
  | @close l buf s1 hw _ h =>
    rw [h.same]
    refine ⟨hk.lt, ?_, fun l' hl' => ?_⟩
    · dsimp only
      rw [Function.update_of_ne (Ne.symm (hk.area l hw.opened))]
      exact hk.entry
    · have hl' : (if l = l' then false else isOpen l' s.trace) = true := hl'
      split_ifs at hl'
      exact hk.area l' hl'

theorem Kept.steps (hk : Kept x s) (h : ReflTransGen (Step c) s s') : Kept x s' := by
  induction h with
  | refl => exact hk
  | tail _ hstep ih => exact hstep.kept ih

end Kept

/-! ## `prepare_journal` -/

/-- The first `n` journal segments are different ones that `get_segment` has returned since
`prepare_sb`, and reserved. -/
structure Listed (base : List Nat) (n : Nat) (s : Sb) : Prop where
  got : ∃ got, returned s.trace = got ++ base ∧ ∀ m < n, s.journalSeg m ∈ got
  distinct : ∀ m m', m < m' → m' < n → s.journalSeg m ≠ s.journalSeg m'
  kept : ∀ m < n, Kept (s.journalSeg m) s

section Prepare

variable {c : Cfg} {s s1 s2 s' : Sb} {base : List Nat} {i n segno : Nat}

/-- Turns that return nothing. -/
theorem Listed.badTurns (h : Listed base n s) (hbad : ReflTransGen (BadTurn c) s s1) :
    Listed base n s1 := by
  have hseg := (SameStore.of_badTurns hbad).journalSeg
  have hsteps : ReflTransGen (Step c) s s1 := ReflTransGen.mono (fun _ _ h => Step.bad h) _ _ hbad
  refine ⟨?_, ?_, fun m hm => ?_⟩
  · rw [returned_badTurns hbad, hseg]
    exact h.got
  · rw [hseg]
    exact h.distinct
  · rw [hseg]
    exact (h.kept m hm).steps hsteps

/-- The next journal segment. -/
theorem Listed.next (h : Listed base i s) (ht : Taken c segno s s1) (hseg : segno < c.noSegs)
    (hopen : ∀ l, isOpen l s.trace = false) :
    Listed base (i + 1) { s1 with
      journalSeg := Function.update s1.journalSeg i segno
      segmentEntry := Function.update s1.segmentEntry segno reservedEntry } := by
  have hj : s1.journalSeg = s.journalSeg := ht.sameStore.journalSeg
  have hsegno := ht.segno_eq
  have hlast := ht.lastseg hseg
  have hret : returned s1.trace = segno :: returned s.trace := by
    rw [ht.same]
    rfl
  have hat : ∀ m, m < i → Function.update s1.journalSeg i segno m = s.journalSeg m := fun m hm => by
    rw [Function.update_of_ne (by omega), hj]
  obtain ⟨got, hgot, hmem⟩ := h.got
  refine ⟨⟨segno :: got, ?_, fun m hm => ?_⟩, fun m m' hlt hm' => ?_, fun m hm => ?_⟩
  · dsimp only
    rw [hret, hgot]
    rfl
  · dsimp only
    by_cases heq : m = i
    · rw [heq, Function.update_self]
      exact List.mem_cons_self
    · rw [hat m (by omega)]
      exact List.mem_cons_of_mem _ (hmem m (by omega))
  · dsimp only
    rw [hat m (by omega)]
    by_cases heq : m' = i
    · have hold := (h.kept m (by omega)).lt
      rw [heq, Function.update_self]
      omega
    · rw [hat m' (by omega)]
      exact h.distinct m m' hlt (by omega)
  · dsimp only
    by_cases heq : m = i
    · rw [heq, Function.update_self]
      refine ⟨by dsimp only; omega, ?_, fun l hl => ?_⟩
      · dsimp only
        rw [Function.update_self]
        rfl
      · dsimp only at hl
        rw [ht.sameStore.isOpen, hopen] at hl
        cases hl
    · rw [hat m (by omega)]
      obtain ⟨h1, hne⟩ := (h.kept m (by omega)).taken ht hseg
      refine ⟨h1.lt, ?_, h1.area⟩
      dsimp only
      rw [Function.update_of_ne (Ne.symm hne)]
      exact h1.entry

/-- The loop does not go on behind the array. -/
theorem prepareJournalLoop_inside : ∀ (n i : Nat) (s : Sb),
    Wp (prepareJournalLoop c n i) (fun _ _ => n = 0 ∨ i + n ≤ journalSegs) (fun _ _ => True) s := by
  intro n
  induction n with
  | zero => exact fun _ _ => Or.inl rfl
  | succ n ih =>
    intro i s
    unfold prepareJournalLoop
    refine (getSegment_spec c s).seq ?_ fun _ _ _ => trivial
    rintro segno s2 -
    rw [wp_ite]
    refine ⟨fun _ => trivial, fun hi => ?_⟩
    have hi := not_not.mp hi
    unfold reserveEntry
    rw [wp_bind, wp_modify, wp_bind]
    refine wp_setEntry (fun _ => ?_) trivial
    exact (ih (i + 1) _).imp fun _ _ hn => Or.inr (by omega)

/-- The loop lists one segment after another. -/
theorem prepareJournalLoop_listed : ∀ (n i : Nat) (s : Sb), Running c s →
    (∀ l, isOpen l s.trace = false) → Listed base i s →
    Wp (prepareJournalLoop c n i)
      (fun _ s' => Running c s' ∧ (∀ l, isOpen l s'.trace = false) ∧ Listed base (i + n) s')
      (fun _ _ => True) s := by
  intro n
  induction n with
  | zero => exact fun i s hr hopen h => ⟨hr, hopen, h⟩
  | succ n ih =>
    intro i s hr hopen h
    unfold prepareJournalLoop
    refine (getSegment_spec c s).seq ?_ fun _ _ _ => trivial
    rintro segno s2 ⟨s1, hbad, ht⟩
    rw [wp_ite]
    refine ⟨fun _ => trivial, fun hi => ?_⟩
    unfold reserveEntry
    rw [wp_bind, wp_modify, wp_bind]
    refine wp_setEntry (fun hseg => ?_) trivial
    obtain ⟨h2, hmem⟩ := (hr.badTurns hbad).taken ht hseg
    have hopen1 : ∀ l, isOpen l s1.trace = false := fun l => by
      rw [(SameStore.of_badTurns hbad).isOpen, hopen]
    have hopen2 : ∀ l, isOpen l s2.trace = false := fun l => by
      rw [ht.sameStore.isOpen, hopen1]
    refine (ih (i + 1) _ ?_ ?_ ((h.badTurns hbad).next ht hseg hopen1)).imp ?_
    · refine ⟨h2.counter, h2.history, h2.opened, fun x hx hlo => ?_⟩
      exact (h2.entry_update hmem _ x hx).trans (h2.bad x hx hlo)
    · exact hopen2
    · intro _ s3 h3
      rw [show i + (n + 1) = i + 1 + n by omega]
      exact h3

theorem prepareJournal_inside (s : Sb) :
    Wp (prepareJournal c) (fun _ _ => c.noJournalSegs ≤ journalSegs) (fun _ _ => True) s :=
  (prepareJournalLoop_inside c.noJournalSegs 0 s).imp fun _ _ h => by omega

end Prepare

/-! ## The whole run -/

/-- A completed run leaves the journal as it should be: the arrays are long enough, the segment
`make_journal` writes to is one `prepare_journal` has got from `get_segment` and not that of the first
superblock, and those listed in the superblock are different ones and reserved. -/
structure JournalSound (c : Cfg) (os : List Outcome) (s : Sb) : Prop where
  inside : c.noJournalSegs ≤ journalSegs
  obtained : ∃ s1 sj got, mkfsPrepare c (Sb.zero os) = .ok () s1 ∧ prepareJournal c s1 = .ok () sj ∧
    returned sj.trace = got ++ returned s1.trace ∧ s.journalSeg 0 ∈ got
  first : s.journalSeg 0 * c.segsize ≠ s.sbOfs1
  distinct : ∀ m m', m < m' → m' < c.noJournalSegs →
    (diskSuper c s).journalSeg m ≠ (diskSuper c s).journalSeg m'
  reserved : ∀ m < c.noJournalSegs, (s.segmentEntry ((diskSuper c s).journalSeg m)).valid = reserved

/-- The loop of `prepare_journal` has been through the array and gets another segment. -/
def IndexOut (c : Cfg) (os : List Outcome) : Prop :=
  journalSegs < c.noJournalSegs ∧ ∃ s1 s2 segno s3, mkfsPrepare c (Sb.zero os) = .ok () s1 ∧
    prepareJournalLoop c journalSegs 0 s1 = .ok () s2 ∧ getSegment c s2 = .ok segno s3

section Run

variable {c : Cfg} {s s1 s2 sj s' : Sb} {k1 k2 : Nat} {os : List Outcome}

/-- Neither the plan nor the table has changed. -/
structure Frozen (s s' : Sb) : Prop where
  plan : SamePlan s s'
  entry : s'.segmentEntry = s.segmentEntry

theorem Frozen.trans (h : Frozen s s1) (h1 : Frozen s1 s') : Frozen s s' :=
  ⟨h.plan.trans h1.plan, h1.entry.trans h.entry⟩

theorem Did.frozen {evs : List Event} {ofs n : Nat} {buf : Buf} (h : Did evs ofs n buf s s') :
    Frozen s s' := by
  rw [h.same]
  exact ⟨⟨rfl, rfl, rfl⟩, rfl⟩

theorem makeJournal_frozen (s : Sb) :
    Wp (makeJournal c) (fun _ s' => Frozen s s') (fun _ _ => True) s := by
  refine (makeJournal_spec (D := fun _ _ => True) fun _ _ _ => trivial).mono ?_
    fun _ _ _ => trivial
  rintro ret s1 ⟨j, je, -, hd⟩
  have hje : Frozen s (journalState s je) := ⟨⟨rfl, rfl, rfl⟩, rfl⟩
  rcases hd with ⟨-, hd⟩ | ⟨-, n, -, hd⟩
  · exact hje.trans hd.frozen
  · exact hje.trans hd.frozen

theorem devWrite_frozen (t : Target) (ofs size : Nat) (buf : Buf) (s : Sb) :
    Wp (devWrite t ofs size buf) (fun _ s' => Frozen s s') (fun _ _ => True) s := by
  refine (devWrite_spec t ofs size buf s).mono ?_ fun _ _ _ => trivial
  rintro ret s1 (⟨-, hd⟩ | ⟨-, n, -, hd⟩)
  · exact hd.frozen
  · exact hd.frozen

theorem makeSuper_frozen (s : Sb) :
    Wp (makeSuper c) (fun _ s' => Frozen s s') (fun _ _ => True) s := by
  unfold makeSuper
  rw [wp_bind, wp_get]
  refine (devWrite_frozen _ _ _ _ s).bind fun ret s1 h1 => ?_
  rw [wp_ite]
  exact ⟨fun _ => (devWrite_frozen _ _ _ _ s1).imp fun _ _ => h1.trans, fun _ => h1⟩

theorem orFail_frozen {msg : String} {m : MkfsM Int}
    (hm : Wp m (fun _ s' => Frozen s s') (fun _ _ => True) s) :
    Wp (orFail msg m) (fun _ s' => Frozen s s') (fun _ _ => True) s :=
  wp_orFail (hm.imp fun _ _ h => ⟨fun _ => h, fun _ => trivial⟩)

/-- The first superblock is at the beginning of a segment that was returned. -/
theorem Prepared.first (h : Prepared c k1 k2 (Sb.zero os) s1) :
    k1 ∈ returned s1.trace ∧ s1.sbOfs1 = k1 * c.segsize := by
  obtain ⟨s2, s3, h1, h2, rfl⟩ := h.steps
  have hret : returned s3.trace = returned s2.trace := h2.scans.trace.erases.2
  have hofs : s3.sbOfs1 = s2.sbOfs1 := by
    cases h2 with
    | bdev _ _ _ h => rw [h]
    | mtd _ h =>
      obtain ⟨fails, -, hs⟩ := h.same
      rw [hs]
  refine ⟨?_, hofs.trans h1.sbOfs.1⟩
  show k1 ∈ returned s3.trace
  obtain ⟨s4, s5, hbad, ht, rfl⟩ := h1.chain
  rw [hret]
  dsimp only
  rw [ht.same]
  exact List.mem_cons_self

/-- The files are stored, and the journal segments stay where they are. -/
theorem storeFiles_kept (hready : Ready sj) (hopen : ∀ l, isOpen l sj.trace = false) :
    Wp (do
        orFail "could not write segment file" (writeSegmentFile c)
        orFail "could not create root inode" (writeRootdir c)
        orFail "could not write segments" (flushSegments c))
      (fun _ s' => SamePlan sj s' ∧ ∀ x, Kept x sj → Kept x s') (fun _ _ => True) sj := by
  refine ((storeFiles_spec hready).and (storeFiles_plan c sj trivial)).mono ?_ fun _ _ _ => trivial
  rintro - s' ⟨hr, -, hplan⟩
  have hclosed : ∀ l, isOpen l s'.trace = false := fun l => by
    rcases Nat.lt_or_ge l noAreas with hl | hl
    · exact hr.closed l hl
    · rw [hr.calm.isOpen_ge hl, hopen]
  have hsteps := hr.calm.steps (fun ⟨l, hl, _⟩ => by rw [hclosed] at hl; cases hl)
  exact ⟨hplan, fun x hk => hk.steps hsteps⟩

/-- A run that completes has the journal segments in the superblock. -/
theorem mkfs_journalSound (hpos : 1 ≤ c.noJournalSegs) (os : List Outcome) :
    Wp (mkfs c) (fun _ s' => JournalSound c os s') (fun _ _ => True) (Sb.zero os) := by
  unfold mkfs
  refine Wp.seq (Wp.and (mkfsPrepare_spec rfl) (Wp.self _ _)) ?_ fun _ _ _ => trivial
  rintro ⟨⟩ s1 ⟨⟨k1, k2, hp⟩, hrun1⟩
  have hplaced := hp.placed
  obtain ⟨hk1, hofs1⟩ := hp.first
  unfold mkfsStore
  rw [wp_bind]
  have hlisted : Listed (returned s1.trace) 0 s1 :=
    ⟨⟨[], rfl, fun m hm => absurd hm (Nat.not_lt_zero m)⟩, fun _ _ _ hm => by omega,
      fun m hm => absurd hm (Nat.not_lt_zero m)⟩
  refine Wp.seq (((prepareJournal_spec s1).and (prepareJournal_inside s1)).and
    ((prepareJournalLoop_listed c.noJournalSegs 0 s1 hplaced.running hplaced.closed hlisted).and
      (Wp.self (prepareJournal c) s1))) ?_ fun _ _ _ => trivial
  rintro ⟨⟩ sj ⟨⟨⟨hran, -⟩, hinside⟩, ⟨hr, hopen, hl⟩, hrunj⟩
  rw [Nat.zero_add] at hl
  refine (storeFiles_kept (hran.ready hp.ready) hopen).imp ?_
  rintro - s2 ⟨hplan, hkept⟩
  refine (orFail_frozen (makeJournal_frozen s2)).seq ?_ fun _ _ _ => trivial
  intro _ s3 h3
  refine (orFail_frozen (makeSuper_frozen s3)).imp fun _ s4 h4 => ?_
  have hfrozen := h3.trans h4
  have hj : s4.journalSeg = sj.journalSeg :=
    hfrozen.plan.journalSeg.trans hplan.journalSeg
  have hlist : ∀ m < c.noJournalSegs, (diskSuper c s4).journalSeg m = sj.journalSeg m :=
    fun m hm => by
      rw [← hj]
      exact if_pos hm
  obtain ⟨got, hgot, hmem⟩ := hl.got
  refine ⟨hinside, ⟨s1, sj, got, hrun1, hrunj, hgot, ?_⟩, ?_, fun m m' hlt hm' => ?_, fun m hm => ?_⟩
  · rw [hj]
    exact hmem 0 hpos
  · -- the segments of the journal were returned after that of the first superblock
    have hinc := hr.history.increasing
    rw [hgot] at hinc
    have hgt := (List.pairwise_append.mp hinc).2.2 _ (hmem 0 hpos) k1 hk1
    rw [hj, hfrozen.plan.sbOfs1, hplan.sbOfs1, hran.calm.samePlaces.1, hofs1]
    intro heq
    have hsame := Nat.eq_of_mul_eq_mul_right c.segsize_pos heq
    omega
  · rw [hlist m (by omega), hlist m' hm']
    exact hl.distinct m m' hlt hm'
  · rw [hlist m hm, hfrozen.entry]
    exact (hkept _ (hl.kept m hm)).entry

/-- Of the runs that complete or leave the array, those with one to sixteen journal segments are
right, and no others. -/
theorem journal_sound_iff (c : Cfg) (os : List Outcome)
    (hrun : (∃ s', mkfs c (Sb.zero os) = .ok () s') ∨ IndexOut c os) :
    (¬ IndexOut c os ∧ ∀ s', mkfs c (Sb.zero os) = .ok () s' → JournalSound c os s') ↔
      1 ≤ c.noJournalSegs ∧ c.noJournalSegs ≤ journalSegs := by
  constructor
  · rintro ⟨hin, hsound⟩
    obtain ⟨s', hs'⟩ := hrun.resolve_right hin
    have h := hsound s' hs'
    refine ⟨?_, h.inside⟩
    by_contra hzero
    -- without a journal segment `prepare_journal` gets none
    obtain ⟨s1, sj, got, -, hj, hgot, hmem⟩ := h.obtained
    have hnone : c.noJournalSegs = 0 := by omega
    unfold prepareJournal at hj
    rw [hnone] at hj
    cases hj
    rw [List.self_eq_append_left.mp hgot] at hmem
    cases hmem
  · rintro ⟨hpos, hle⟩
    refine ⟨fun h => ?_, fun s' hs' => (mkfs_journalSound hpos os).of_ok hs'⟩
    have hlt := h.1
    omega

end Run

/-- A block device of 64 segments of 8 KiB, with so many journal segments. -/
def withJournals (n : Nat) : Cfg :=
  { sampleCfg .bdev 13 64 smallest_gt smallest_le sixtyFour_lt with noJournalSegs := n }

def goodAnswers : List Outcome := List.replicate 40 (.ok 8192)

/-- Four journal segments, behind a segment that cannot be erased and that of the first
superblock. -/
theorem journal_sound_iff_four :
    ∃ s', mkfs (withJournals 4) (Sb.zero (.error :: goodAnswers)) = .ok () s' ∧
      JournalSound (withJournals 4) (.error :: goodAnswers) s' ∧
      (List.range 4).map s'.journalSeg = [2, 3, 4, 5] := by
  obtain ⟨⟨⟩, hrun⟩ := ok_of_returns (m := mkfs (withJournals 4))
    (s := Sb.zero (.error :: goodAnswers)) (by decide +kernel)
  have hsound := ((journal_sound_iff (withJournals 4) (.error :: goodAnswers)
    (Or.inl ⟨_, hrun⟩)).mpr (by decide)).2 _ hrun
  exact ⟨_, hrun, hsound, by decide +kernel⟩

/-- Without a journal segment the journal goes to the segment of the first superblock; with
seventeen the last one is stored behind the array. -/
theorem journal_unsound :
    (∃ s', mkfs (withJournals 0) (Sb.zero goodAnswers) = .ok () s' ∧
      s'.journalSeg 0 * (withJournals 0).segsize = s'.sbOfs1 ∧
      ¬ JournalSound (withJournals 0) goodAnswers s') ∧
    IndexOut (withJournals 17) goodAnswers := by
  constructor
  · obtain ⟨⟨⟩, hrun⟩ := ok_of_returns (m := mkfs (withJournals 0)) (s := Sb.zero goodAnswers)
      (by decide +kernel)
    have hseg : (after (mkfs (withJournals 0)) (Sb.zero goodAnswers)).journalSeg 0 *
        (withJournals 0).segsize =
          (after (mkfs (withJournals 0)) (Sb.zero goodAnswers)).sbOfs1 := by decide +kernel
    exact ⟨_, hrun, hseg, fun h => h.first hseg⟩
  · obtain ⟨⟨⟩, h1⟩ := ok_of_returns (m := mkfsPrepare (withJournals 17))
      (s := Sb.zero goodAnswers) (by decide +kernel)
    obtain ⟨⟨⟩, h2⟩ := ok_of_returns (m := prepareJournalLoop (withJournals 17) journalSegs 0)
      (s := after (mkfsPrepare (withJournals 17)) (Sb.zero goodAnswers)) (by decide +kernel)
    obtain ⟨segno, h3⟩ := ok_of_returns (m := getSegment (withJournals 17))
      (s := after (prepareJournalLoop (withJournals 17) journalSegs 0)
        (after (mkfsPrepare (withJournals 17)) (Sb.zero goodAnswers))) (by decide +kernel)
    exact ⟨by decide, _, _, segno, _, h1, h2, h3⟩

end Logfs.Mkfs
