import Logfs.Mkfs.Contents
import Logfs.Mkfs.Copies
import Logfs.Mkfs.Listed

/-!
# The device of a run that has completed

The objects of the files, the journal and the two superblocks are in segments of
their own, as long as the segments taken end before the second superblock, which
is not in the segment that was reserved for it on a block device.  The pointers
and the place of the journal are numbers of 32 bits.
-/

namespace Logfs.Mkfs

open Relation (ReflTransGen)

/-- The segments that were taken end before the second superblock and below four gigabytes. -/
structure Roomy (c : Cfg) (s : Sb) : Prop where
  second : s.lastseg * c.segsize ≤ s.sbOfs2
  low : s.lastseg * c.segsize ≤ 2 ^ 32

/-! ## What was only erased -/

section Erased

variable {c : Cfg} {s s1 s' : Sb} {os : List Outcome} {k k1 k2 : Nat}

theorem badTurns_erased_content (h : ReflTransGen (BadTurn c) s s')
    (hs : ∀ x, s.content eraseBuf x = 0xff) (x : Nat) : s'.content eraseBuf x = 0xff := by
  induction h with
  | refl => exact hs x
  | tail _ hb ih =>
    obtain ⟨n, -, hcontent⟩ := hb.content
    rw [hcontent]
    split_ifs
    · rfl
    · exact ih

theorem First.erased (h : First c k s s') (hs : ∀ x, s.content eraseBuf x = 0xff) (x : Nat) :
    s'.content eraseBuf x = 0xff := by
  obtain ⟨s1, s2, hbad, ht, rfl⟩ := h.chain
  refine (ht.content eraseBuf x).trans ?_
  split_ifs
  · rfl
  · exact badTurns_erased_content hbad hs x

/-- `prepare_sb` has written nothing. -/
theorem Prepared.erased (h : Prepared c k1 k2 (Sb.zero os) s') (x : Nat) :
    s'.content eraseBuf x = 0xff := by
  obtain ⟨s1, s2, h1, h2, rfl⟩ := h.steps
  have he := h1.erased (fun _ => rfl)
  cases h2 with
  | bdev _ _ _ h =>
    rw [h]
    exact he x
  | mtd _ h =>
    refine (h.content eraseBuf x).trans ?_
    split_ifs
    · rfl
    · exact he x

theorem Prepared.sbOfs2_lt (h : Prepared c k1 k2 s s') : s'.sbOfs2 < 2 ^ 64 := by
  obtain ⟨s1, s2, -, h2, rfl⟩ := h.steps
  dsimp only
  cases h2 with
  | bdev _ _ _ h =>
    rw [h]
    exact Nat.mod_lt _ (by decide)
  | mtd _ h =>
    have hle : (k2 + 1) * c.segsize ≤ 2 ^ 32 * 2 ^ 30 :=
      Nat.mul_le_mul (le_trans h.lt (le_of_lt c.noSegs_lt)) c.segsize_le
    obtain ⟨fails, -, hs⟩ := h.same
    rw [hs]
    dsimp only
    omega

/-- The segment of the first superblock is not taken again. -/
theorem Prepared.kept (h : Prepared c k1 k2 (Sb.zero os) s') :
    Kept k1 s' ∧ s'.sbOfs1 = k1 * c.segsize := by
  have hofs := h.first.2
  have hclosed := h.table.2.2
  obtain ⟨s1, s2, h1, h2, rfl⟩ := h.steps
  have hlast : s2.lastseg = s1.lastseg := by
    cases h2 with
    | bdev _ _ _ h => rw [h]
    | mtd _ h =>
      obtain ⟨fails, -, hs⟩ := h.same
      rw [hs]
  refine ⟨⟨?_, ?_, fun l hl => ?_⟩, hofs⟩
  · dsimp only
    rw [hlast, h1.table.2.1]
    exact Nat.lt_succ_self k1
  · show (s2.segmentEntry k1).valid = reserved
    rw [((h2.marked h1).entry k1).2 (Or.inl rfl)]
    rfl
  · rw [hclosed] at hl
    cases hl

end Erased

/-! ## Offsets recorded -/

section Recorded

variable {c : Cfg} {s s1 s' : Sb} {os : List Outcome} {k k1 k2 segno : Nat}

theorem badTurns_jeArray (h : ReflTransGen (BadTurn c) s s') : s'.jeArray = s.jeArray := by
  induction h with
  | refl => rfl
  | tail _ hb ih =>
    rw [hb.same]
    exact ih

theorem Taken.jeArray (h : Taken c segno s s') : s'.jeArray = s.jeArray := by rw [h.same]

/-- The object store records no journal entry. -/
theorem Calm.jeArray (h : Calm c s s') : s'.jeArray = s.jeArray := by
  induction h with
  | refl => rfl
  | tail _ hstep ih =>
    rw [← ih]
    rcases hstep with hstep | hstep
    · cases hstep with
      | create => rfl
      | modify => rfl
      | bad h => exact badTurns_jeArray (.single h)
      | reserve _ h => exact h.jeArray
      | fresh _ _ h => exact h.jeArray
      | append => rfl
      | close _ _ h => rw [h.same]
    · cases hstep with
      | mk _ _ h => exact h.jeArray

theorem Prepared.jeArray (h : Prepared c k1 k2 s s') : s'.jeArray = s.jeArray := by
  obtain ⟨s1, s2, h1, h2, rfl⟩ := h.steps
  have hfirst : s1.jeArray = s.jeArray := by
    obtain ⟨s3, s4, hbad, ht, rfl⟩ := h1.chain
    exact ht.jeArray.trans (badTurns_jeArray hbad)
  rw [← hfirst]
  cases h2 with
  | bdev _ _ _ h => rw [h]
  | mtd _ h =>
    obtain ⟨fails, -, hs⟩ := h.same
    rw [hs]

theorem Prepared.journalSeg (h : Prepared c k1 k2 s s') : s'.journalSeg = s.journalSeg := by
  obtain ⟨s1, s2, h1, h2, rfl⟩ := h.steps
  have hfirst : s1.journalSeg = s.journalSeg := by
    obtain ⟨s3, s4, hbad, ht, rfl⟩ := h1.chain
    exact ht.sameStore.journalSeg.trans (SameStore.of_badTurns hbad).journalSeg
  rw [← hfirst]
  cases h2 with
  | bdev _ _ _ h => rw [h]
  | mtd _ h =>
    obtain ⟨fails, -, hs⟩ := h.same
    rw [hs]

end Recorded

/-! ## Segments without objects -/

section Apart

variable {c : Cfg} {s s' : Sb} {x : Nat}

/-- A segment that is kept gets no object. -/
theorem Step.noObject (h : Step c s s') (hk : Kept x s) (hno : ∀ o ∈ objects s.trace, o.segno ≠ x) :
    ∀ o ∈ objects s'.trace, o.segno ≠ x := by
  cases h with
  | create => exact hno
  | modify => exact hno
  | bad h => rwa [h.sameStore.objects]
  | reserve _ h => rwa [← h.sameStore.objects] at hno
  | fresh _ _ h => rwa [← h.sameStore.objects] at hno
  | append h =>
    intro o ho
    rcases List.mem_cons.1 ho with rfl | ho
    · rw [h.segno_eq]
      exact hk.area _ h.opened
    · exact hno o ho
  | close _ _ h =>
    rw [h.same]
    exact hno

theorem Kept.noObject (hk : Kept x s) (h : ReflTransGen (Step c) s s')
    (hno : ∀ o ∈ objects s.trace, o.segno ≠ x) : ∀ o ∈ objects s'.trace, o.segno ≠ x := by
  induction h with
  | refl => exact hno
  | tail h1 hstep ih => exact hstep.noObject (hk.steps h1) ih

/-- The objects are on any device that holds their segments. -/
theorem Placements.onDevice_of (h : Placements c s)
    (hlow : ∀ o ∈ objects s.trace, o.segno * c.segsize < 2 ^ 32) (init : Buf) {dev : Buf}
    (hdev : ∀ o ∈ objects s.trace, ∀ x, InSegment c o.segno x → dev x = s.content init x) :
    OnDevice c (objects s.trace) dev := by
  intro o ho
  obtain ⟨h0, hat⟩ := h.onDevice hlow init o ho
  refine ⟨h0, hat.congr fun x hle hlt => hdev o ho x ?_⟩
  obtain ⟨objs, hp⟩ := h.inPlace ho
  obtain ⟨hu, hfits, hsize⟩ := hp.used_lt
  rw [ofs_of_lt (by omega) (hlow o ho)] at hle hlt
  rw [Obj.bytes_length] at hlt
  exact ⟨by omega, by omega⟩

end Apart

/-! ## The superblocks -/

/-- What `make_super` writes for each copy. -/
def superSector (c : Cfg) (s : Sb) : Buf := padded 0 ((diskSuper c s).bytes c.crc32)

/-- `make_super` has written the first copy, and `n` bytes of the second one. -/
structure Supered (c : Cfg) (n : Nat) (s s' : Sb) : Prop where
  writes : ∃ s1 w1 evs, Did [.done w1 true, .issue w1] s.sbOfs1 c.secsize (superSector c s) s s1 ∧
    Did evs s.sbOfs2 n (superSector c s) s1 s' ∧ ∀ tr, objects (evs ++ tr) = objects tr
  le : n ≤ c.secsize

section Super

variable {c : Cfg} {s s' : Sb} {n : Nat}

theorem InSegment.unique {i i' x : Nat} (h : InSegment c i x) (h' : InSegment c i' x) : i = i' := by
  rw [← div_segsize h, div_segsize h']

/-- `make_super` behind the first write. -/
def secondSuper (c : Cfg) (s : Sb) (ret : Int) : MkfsM Int :=
  if ret = 0 then devWrite (.super 1) s.sbOfs2 c.secsize (superSector c s) else pure ret

theorem makeSuper_eq (s : Sb) : makeSuper c s =
    (devWrite (.super 0) s.sbOfs1 c.secsize (superSector c s) >>= secondSuper c s) s := rfl

theorem makeSuper_supered (s : Sb) :
    Wp (makeSuper c) (fun r s' => r = 0 → Supered c c.secsize s s') (fun _ _ => True) s := by
  unfold Wp
  rw [makeSuper_eq]
  apply (devWrite_spec (.super 0) s.sbOfs1 c.secsize (superSector c s) s).seq _ fun _ _ _ => trivial
  rintro r s1 (⟨rfl, h1⟩ | ⟨rfl, -⟩)
  · unfold secondSuper
    rw [if_pos rfl]
    apply (devWrite_spec _ _ _ _ s1).mono _ fun _ _ _ => trivial
    rintro r s2 (⟨-, h2⟩ | ⟨rfl, -⟩)
    · exact fun _ => ⟨⟨s1, _, _, h1, h2, fun _ => rfl⟩, Nat.le_refl _⟩
    · exact fun hr => absurd hr (by decide)
  · unfold secondSuper
    rw [if_neg (by decide)]
    exact fun hr => absurd hr (by decide)

/-- What comes behind a program that has returned. -/
theorem after_bind {α β : Type} {m : MkfsM α} {s s1 : Sb} {a : α} (f : α → MkfsM β)
    (h : m s = .ok a s1) : after (m >>= f) s = after (f a) s1 := by
  have hbind : (m >>= f) s = f a s1 := by
    change EStateM.bind m f s = _
    unfold EStateM.bind
    rw [h]
  unfold after
  rw [hbind]

/-- However the run goes on behind the first copy, this one is there, and any part of the other. -/
theorem makeSuper_cut {s1 : Sb}
    (h : devWrite (.super 0) s.sbOfs1 c.secsize (superSector c s) s = .ok 0 s1) :
    ∃ n, Supered c n s (after (makeSuper c) s) := by
  have h1 : Did _ s.sbOfs1 c.secsize (superSector c s) s s1 :=
    (((devWrite_spec _ _ _ _ s).of_ok h).resolve_right fun h => absurd h.1 (by decide)).2
  have hrun : after (makeSuper c) s = after (secondSuper c s 0) s1 := by
    rw [← after_bind (secondSuper c s) h]
    unfold after
    rw [makeSuper_eq]
  rw [hrun]
  apply after_of_wp (P := fun s' => ∃ n, Supered c n s s')
  unfold secondSuper
  rw [if_pos rfl]
  apply (devWrite_spec _ _ _ _ s1).mono
  · rintro r s2 (⟨-, h2⟩ | ⟨-, n, hn, h2⟩)
    · exact ⟨_, ⟨s1, _, _, h1, h2, fun _ => rfl⟩, Nat.le_refl _⟩
    · exact ⟨n, ⟨s1, _, _, h1, h2, fun _ => rfl⟩, hn⟩
  · rintro e s2 ⟨n, hn, h2⟩
    exact ⟨n, ⟨s1, _, _, h1, h2, fun _ => rfl⟩, hn⟩

/-- Nothing but the device and the history has changed. -/
structure SameMemory (s s' : Sb) : Prop where
  lastseg : s'.lastseg = s.lastseg
  usedBytes : s'.usedBytes = s.usedBytes
  plan : SamePlan s s'
  segmentEntry : s'.segmentEntry = s.segmentEntry
  inodes : inodeAt s' = inodeAt s
  objects : Mkfs.objects s'.trace = Mkfs.objects s.trace

theorem SameMemory.trans {s1 : Sb} (h : SameMemory s s1) (h1 : SameMemory s1 s') :
    SameMemory s s' where
  lastseg := h1.lastseg.trans h.lastseg
  usedBytes := h1.usedBytes.trans h.usedBytes
  plan := h.plan.trans h1.plan
  segmentEntry := h1.segmentEntry.trans h.segmentEntry
  inodes := h1.inodes.trans h.inodes
  objects := h1.objects.trans h.objects

theorem Did.sameMemory {evs : List Event} {ofs : Nat} {buf : Buf} (h : Did evs ofs n buf s s')
    (hobj : ∀ tr, Mkfs.objects (evs ++ tr) = Mkfs.objects tr) : SameMemory s s' := by
  rw [h.same]
  exact ⟨rfl, rfl, ⟨rfl, rfl, rfl⟩, rfl, rfl, hobj _⟩

theorem journalState_same (s : Sb) (je : List Nat) : SameMemory s (journalState s je) := by
  refine ⟨rfl, rfl, ⟨rfl, rfl, rfl⟩, rfl, ?_, rfl⟩
  unfold journalState
  cases h : s.inoTree.get inoMaster with
  | some i => rfl
  | none =>
    rw [inodeAt_insert (s := s) inoMaster rfl, ← show inodeAt s inoMaster = .zero by
      rw [inodeAt, h]; rfl, Function.update_eq_self]

theorem Supered.sameMemory (h : Supered c n s s') : SameMemory s s' := by
  obtain ⟨s1, w1, evs, h1, h2, hobj⟩ := h.writes
  exact (h1.sameMemory fun _ => rfl).trans (h2.sameMemory hobj)

theorem SameMemory.diskSuper (h : SameMemory s s') : diskSuper c s' = diskSuper c s := by
  unfold Mkfs.diskSuper
  rw [h.plan.journalSeg, h.plan.sbOfs1, h.plan.sbOfs2]

/-- Outside of the two copies the device is as before. -/
theorem Supered.content (h : Supered c n s s') (init : Buf) {x : Nat}
    (h1 : ¬ (s.sbOfs1 ≤ x ∧ x < s.sbOfs1 + c.secsize))
    (h2 : ¬ (s.sbOfs2 ≤ x ∧ x < s.sbOfs2 + c.secsize)) : s'.content init x = s.content init x := by
  obtain ⟨s1, w1, evs, hd1, hd2, -⟩ := h.writes
  have hle := h.le
  rw [hd2.content, if_neg (by omega), hd1.content, if_neg h1]

/-- A segment other than that of the first copy keeps what is not part of the second one. -/
theorem Supered.outside (h : Supered c n s s') (init : Buf) {k i x : Nat}
    (hk : s.sbOfs1 = k * c.segsize) (hx : InSegment c i x) (hne : i ≠ k)
    (h2 : ¬ (s.sbOfs2 ≤ x ∧ x < s.sbOfs2 + c.secsize)) : s'.content init x = s.content init x := by
  have hsec := secsize_le c
  apply h.content init _ h2
  rw [hk]
  exact fun hc => hne (hx.unique ⟨hc.1, by omega⟩)

theorem superSector_at (c : Cfg) (s : Sb) {i : Nat} (hi : i < 256) :
    i < c.secsize ∧ superSector c s i = ((Mkfs.diskSuper c s).bytes c.crc32).getD i 0 := by
  have hsec : 256 ≤ c.secsize := by
    rw [secsize_eq]
    exact le_max_left _ _
  have hlen : ((Mkfs.diskSuper c s).bytes c.crc32).length = 256 := DiskSuper.bytes_length _
  have hpad := at_iff.1 (at_padded 0 ((Mkfs.diskSuper c s).bytes c.crc32)) i (by omega)
  rw [Nat.zero_add] at hpad
  exact ⟨by omega, hpad⟩

/-- The first copy is there when the second one does not overlap it. -/
theorem Supered.first (h : Supered c n s s') (init : Buf)
    (happ : s.sbOfs1 + c.secsize ≤ s.sbOfs2) :
    At (s'.content init) s.sbOfs1 ((Mkfs.diskSuper c s).bytes c.crc32) := by
  obtain ⟨s1, w1, evs, hd1, hd2, -⟩ := h.writes
  rw [at_iff, DiskSuper.bytes_length]
  intro i hi
  obtain ⟨hsec, hbyte⟩ := superSector_at c s hi
  rw [hd2.content, if_neg (by omega), hd1.content, if_pos (by omega), Nat.add_sub_cancel_left, hbyte]

/-- The second copy is there when all of it was written. -/
theorem Supered.second (h : Supered c c.secsize s s') (init : Buf) :
    At (s'.content init) s.sbOfs2 ((Mkfs.diskSuper c s).bytes c.crc32) := by
  obtain ⟨s1, w1, evs, hd1, hd2, -⟩ := h.writes
  rw [at_iff, DiskSuper.bytes_length]
  intro i hi
  obtain ⟨hsec, hbyte⟩ := superSector_at c s hi
  rw [hd2.content, if_pos (by omega), Nat.add_sub_cancel_left, hbyte]

end Super

/-! ## Everything -/

/-- What a run has left on the device, beside the superblocks. -/
structure Medium (c : Cfg) (inflate : List UInt8 → List UInt8) (s : Sb) (dev : Buf) : Prop where
  journal : ∃ j h0 h1 h2 h3, Reads c inflate s j h0 h1 h2 h3 ∧
    ∀ i < c.segsize, dev (s.journalSeg 0 * c.segsize + i) = j i
  objects : OnDevice c (Mkfs.objects s.trace) dev
  files : NewFiles c s
  words : TableWords c s
  used_lt : s.usedBytes < 2 ^ 64 ∧ ∀ ino, (inodeAt s ino).di.usedBytes < 2 ^ 64
  noSegs_lt : c.noSegs < 2 ^ 31
  journalSeg_lt : ∀ m < c.noJournalSegs, s.journalSeg m < 2 ^ 32
  sbOfs_lt : s.sbOfs1 < 2 ^ 64 ∧ s.sbOfs2 < 2 ^ 64

section Run

variable {c : Cfg} {s s1 s2 sj s' : Sb} {inflate : List UInt8 → List UInt8}

theorem NewFiles.congr (h : NewFiles c s) (hm : SameMemory s s') : NewFiles c s' := by
  refine ⟨?_, by rw [hm.inodes]; exact h.segfile, by rw [hm.inodes]; exact h.root⟩
  have hfiles : newFiles c s' = newFiles c s := by
    unfold newFiles
    rw [hm.inodes]
  rw [hfiles]
  exact h.held.same hm.objects hm.inodes

theorem Reads.congr {j : Buf} {h0 h1 h2 h3 : JournalHeader} (h : Reads c inflate s j h0 h1 h2 h3)
    (hm : SameMemory s s') : Reads c inflate s' j h0 h1 h2 h3 where
  walk := h.walk
  types := h.types
  aligned := h.aligned
  apart := h.apart
  valid := h.valid
  anchor := by
    rw [h.anchor]
    unfold anchorData
    rw [show (s'.inoTree.get inoMaster).getD .zero = (s.inoTree.get inoMaster).getD .zero from
      congrFun hm.inodes inoMaster]
  dynsb := by rw [h.dynsb, hm.usedBytes]
  objAlias := by
    rw [h.objAlias]
    unfold segmentAliases segmentAlias
    rw [hm.segmentEntry]
  commit := by rw [h.commit, hm.plan.journalSeg]

/-- All objects are placed, and none is in segment `k` or in one of the journal. -/
structure Separate (c : Cfg) (k : Nat) (s : Sb) : Prop where
  placements : Placements c s
  words : TableWords c s
  jeArray : s.jeArray = []
  used_lt : s.usedBytes < 2 ^ 64 ∧ ∀ ino, (inodeAt s ino).di.usedBytes < 2 ^ 64
  first : Kept k s ∧ ∀ o ∈ Mkfs.objects s.trace, o.segno ≠ k
  journal : ∀ m < c.noJournalSegs, Kept (s.journalSeg m) s ∧ s.journalSeg m ≠ k ∧
    ∀ o ∈ Mkfs.objects s.trace, o.segno ≠ s.journalSeg m
  sbOfs : s.sbOfs1 = k * c.segsize ∧ s.sbOfs2 < 2 ^ 64

/-- Without open areas nothing was taken behind the table. -/
theorem Calm.steps_of_closed (h : Calm c s s') (hclosed : ∀ l, isOpen l s'.trace = false) :
    ReflTransGen (Step c) s s' := h.steps fun ⟨l, hl, _⟩ => by
  rw [hclosed] at hl
  cases hl

theorem StoreRan.allClosed (h : StoreRan c s s') (hopen : ∀ l, isOpen l s.trace = false) (l : Nat) :
    isOpen l s'.trace = false := by
  rcases Nat.lt_or_ge l noAreas with hl | hl
  · exact h.closed l hl
  · rw [h.calm.isOpen_ge hl, hopen]

/-- `prepare_journal` after `prepare_sb` opens no area, and lists segments of its own. -/
theorem prepareJournal_listed {k1 k2 : Nat} {os : List Outcome}
    (hp : Prepared c k1 k2 (Sb.zero os) s1) :
    Wp (prepareJournal c) (fun _ sj => Ran c [] s1 sj ∧ Running c sj ∧
        (∀ l, isOpen l sj.trace = false) ∧ Listed (returned s1.trace) c.noJournalSegs sj)
      (fun _ _ => True) s1 := by
  have hplaced := hp.placed
  have hlisted : Listed (returned s1.trace) 0 s1 :=
    ⟨⟨[], rfl, fun m hm => absurd hm (Nat.not_lt_zero m)⟩, fun _ _ _ hm => by omega,
      fun m hm => absurd hm (Nat.not_lt_zero m)⟩
  apply ((prepareJournal_spec s1).and (prepareJournalLoop_listed c.noJournalSegs 0 s1
    hplaced.running hplaced.closed hlisted)).mono _ fun _ _ _ => trivial
  rintro - sj ⟨⟨hran, -⟩, hr, hopen, hl⟩
  rw [Nat.zero_add] at hl
  exact ⟨hran, hr, hopen, hl⟩

theorem mkfsStore_separate {k1 k2 : Nat} {os : List Outcome}
    (hp : Prepared c k1 k2 (Sb.zero os) s1) :
    Wp (mkfsStore c) (fun _ s' => Separate c k1 s') (fun _ _ => True) s1 := by
  have hb := hp.blank
  obtain ⟨hkept, hofs1⟩ := hp.kept
  have hk1 := hp.first.1
  have hnone : ∀ o, o ∉ Mkfs.objects s1.trace := fun o ho => by
    rw [hb.quiet.objects] at ho
    cases ho
  unfold mkfsStore
  refine (prepareJournal_listed hp).seq ?_ fun _ _ _ => trivial
  rintro - sj ⟨hran, hr, hopen, hl⟩
  refine ((storeFiles_spec (hran.ready hp.ready)).and (storeFiles_plan c sj trivial)).mono ?_
    fun _ _ _ => trivial
  rintro - s' ⟨hstored, -, hplan⟩
  have hclosed := hstored.allClosed hopen
  have hsteps1 := hran.calm.steps_of_closed hopen
  have hsteps2 := hstored.calm.steps_of_closed hclosed
  have hsteps := hsteps1.trans hsteps2
  have hcalm := hran.calm.trans hstored.calm
  have hjno : ∀ x, ∀ o ∈ Mkfs.objects sj.trace, o.segno ≠ x := fun x o ho => by
    rw [hran.objects] at ho
    exact absurd ho (hnone o)
  obtain ⟨got, hgot, hmem⟩ := hl.got
  have hcharged := hcalm.charged hb.charged
  refine ⟨⟨(hb.image hp.erased).steps hb.counted hb.fillings hsteps,
    hb.laid.steps hb.counted hb.fillings hsteps, hcalm.fillings hb.fillings, hclosed⟩,
    fun i _ => (hb.counted.steps hb.fillings hsteps).words i, by rw [hcalm.jeArray, hp.jeArray]; rfl,
    ⟨by rw [hcharged.used]; exact Nat.mod_lt _ (by decide), fun ino => by
      rw [hcharged.inodes]; exact Nat.mod_lt _ (by decide)⟩,
    ⟨hkept.steps hsteps, hkept.noObject hsteps fun o ho => absurd ho (hnone o)⟩,
    fun m hm => ?_, ?_, ?_⟩
  · rw [hplan.journalSeg]
    have hj := hl.kept m hm
    refine ⟨hj.steps hsteps2, ?_, hj.noObject hsteps2 (hjno _)⟩
    -- the segments of the journal were returned after that of the first superblock
    have hinc := hr.history.increasing
    rw [hgot] at hinc
    have hgt := (List.pairwise_append.mp hinc).2.2 _ (hmem m hm) k1 hk1
    omega
  · rw [hcalm.samePlaces.1, hofs1]
  · rw [hcalm.samePlaces.2]
    exact hp.sbOfs2_lt

theorem InSegment.lt_mul {i n x : Nat} (h : InSegment c i x) (hi : i < n) : x < n * c.segsize := by
  have hle : (i + 1) * c.segsize ≤ n * c.segsize := Nat.mul_le_mul_right _ hi
  rw [Nat.add_mul, Nat.one_mul] at hle
  exact lt_of_lt_of_le h.2 hle

/-- The second superblock is behind the segment of the first one. -/
theorem Separate.sbOfs_lt {k : Nat} (h : Separate c k s)
    (hroom : s.lastseg * c.segsize ≤ s.sbOfs2) : s.sbOfs1 + c.secsize ≤ s.sbOfs2 := by
  have hsec := secsize_le c
  have hle : (k + 1) * c.segsize ≤ s.lastseg * c.segsize := Nat.mul_le_mul_right _ h.first.1.lt
  rw [Nat.add_mul, Nat.one_mul] at hle
  rw [h.sbOfs.1]
  omega

/-- The journal and the superblocks are written to segments of their own. -/
theorem Separate.medium {k n : Nat} {s3 : Sb} {j : Buf} {je : List Nat} {w : DevWrite}
    {n0 n1 n2 n3 : Nat} (h : Separate c k s) (hpos : 1 ≤ c.noJournalSegs)
    (hj : Journaled c (fun payload data => inflate payload = data) s j n0 n1 n2 n3)
    (hd : Did [.done w true, .issue w] (s.journalSeg 0 * c.segsize % 2 ^ 32) c.segsize j
      (journalState s je) s3)
    (hs : Supered c n s3 s') (hf : NewFiles c s) (hroom : Roomy c s') (init : Buf) :
    Medium c inflate s' (s'.content init) ∧
      At (s'.content init) s'.sbOfs1 ((diskSuper c s').bytes c.crc32) := by
  have hm : SameMemory s s3 := (journalState_same s je).trans (hd.sameMemory fun _ => rfl)
  have hm' : SameMemory s s' := hm.trans hs.sameMemory
  have hsecond := hroom.second
  have hlow := hroom.low
  rw [hm'.lastseg] at hsecond hlow
  rw [hm'.plan.sbOfs2] at hsecond
  have hsize := c.segsize_pos
  have hseg0 : ∀ i, InSegment c i (i * c.segsize) := fun i => ⟨Nat.le_refl _, by omega⟩
  have hbelow : ∀ i, i < s.lastseg → i * c.segsize < 2 ^ 32 := fun i hi =>
    lt_of_lt_of_le ((hseg0 _).lt_mul hi) hlow
  obtain ⟨hjkept, hjapart, hjno⟩ := h.journal 0 hpos
  have hjlow := hbelow _ hjkept.lt
  rw [Nat.mod_eq_of_lt hjlow] at hd
  have hsec := secsize_le c
  have happ := h.sbOfs_lt hsecond
  -- a segment that was taken, other than that of the first superblock, is left as it was
  have hkeep : ∀ i x, InSegment c i x → i < s.lastseg → i ≠ k →
      s'.content init x = s3.content init x := fun i x hx hi hne => by
    have hlt := hx.lt_mul hi
    apply hs.outside init (hm.plan.sbOfs1.trans h.sbOfs.1) hx hne
    rw [hm.plan.sbOfs2]
    omega
  refine ⟨⟨?_, ?_, hf.congr hm', fun i hi => ?_, ?_, hj.aliases_fit.1, fun m hm => ?_, ?_⟩, ?_⟩
  · obtain ⟨h0, h1, h2, h3, hr⟩ := hj.reads h.jeArray
    refine ⟨j, h0, h1, h2, h3, hr.congr hm', fun i hi => ?_⟩
    have hin : InSegment c (s.journalSeg 0) (s.journalSeg 0 * c.segsize + i) := inSegment_add hi
    rw [hm'.plan.journalSeg, hkeep _ _ hin hjkept.lt hjapart, hd.content,
      if_pos ⟨hin.1, hin.2⟩, Nat.add_sub_cancel_left]
  · rw [hm'.objects]
    refine h.placements.onDevice_of (fun o ho => hbelow _ (h.placements.laid.lt o ho)) init
      fun o ho x hx => ?_
    rw [hkeep _ x hx (h.placements.laid.lt o ho) (h.first.2 o ho), hd.content, if_neg]
    · rfl
    · exact fun hc => hjno o ho (hx.unique hc)
  · rw [hm'.segmentEntry]
    exact h.words i hi
  · rw [hm'.usedBytes, hm'.inodes]
    exact h.used_lt
  · have hlt := hbelow _ (h.journal m hm).1.lt
    rw [hm'.plan.journalSeg]
    exact lt_of_le_of_lt (Nat.le_mul_of_pos_right _ hsize) hlt
  · rw [hm'.plan.sbOfs1, hm'.plan.sbOfs2]
    have hk := hbelow k h.first.1.lt
    rw [h.sbOfs.1]
    exact ⟨by omega, h.sbOfs.2⟩
  · have hfirst := hs.first init (by rwa [hm.plan.sbOfs1, hm.plan.sbOfs2])
    rw [hm'.diskSuper, hm'.plan.sbOfs1]
    rwa [hm.diskSuper, hm.plan.sbOfs1] at hfirst

/-- The state when the journal has been written. -/
structure AllStored (c : Cfg) (inflate : List UInt8 → List UInt8) (s3 : Sb) : Prop where
  written : ∃ s k j je w n0 n1 n2 n3, Separate c k s ∧ NewFiles c s ∧
    Journaled c (fun payload data => inflate payload = data) s j n0 n1 n2 n3 ∧
    Did [.done w true, .issue w] (s.journalSeg 0 * c.segsize % 2 ^ 32) c.segsize j
      (journalState s je) s3

theorem AllStored.medium {n : Nat} {s3 : Sb} (h : AllStored c inflate s3) (hpos : 1 ≤ c.noJournalSegs)
    (hs : Supered c n s3 s') (hroom : Roomy c s') (init : Buf) :
    Medium c inflate s' (s'.content init) ∧
      At (s'.content init) s'.sbOfs1 ((diskSuper c s').bytes c.crc32) := by
  obtain ⟨s, k, j, je, w, n0, n1, n2, n3, hset, hfiles, hj, hd⟩ := h.written
  exact hset.medium hpos hj hd hs hfiles hroom init

theorem makeJournal_stored {k1 k2 : Nat} {os : List Outcome} (hinf : ∀ inp n,
    (c.deflate inp n).1 = true → inflate (c.deflate inp n).2 = inp)
    (hp : Prepared c k1 k2 (Sb.zero os) s1) :
    Wp (mkfsStore c) (fun _ s2 => Wp (makeJournal c) (fun r s3 => r = 0 → AllStored c inflate s3)
      (fun _ _ => True) s2) (fun _ _ => True) s1 := by
  apply ((mkfsStore_separate hp).and (mkfsStore_newFiles hp.blank)).mono _ fun _ _ _ => trivial
  rintro - s2 ⟨hset, hfiles⟩
  apply (makeJournal_spec (D := fun payload data => inflate payload = data) hinf).mono _
    fun _ _ _ => trivial
  rintro r s3 ⟨j, je, ⟨n0, n1, n2, n3, hj⟩, ⟨-, hd⟩ | ⟨rfl, -⟩⟩
  · exact fun _ => ⟨s2, k1, j, je, _, n0, n1, n2, n3, hset, hfiles, hj, hd⟩
  · exact fun hr => absurd hr (by decide)

/-- What a completed run has stored is on the device, when there is room for it. -/
theorem mkfs_medium (hinf : ∀ inp n, (c.deflate inp n).1 = true →
    inflate (c.deflate inp n).2 = inp) (hpos : 1 ≤ c.noJournalSegs) (os : List Outcome) :
    Wp (mkfs c) (fun _ s => Roomy c s → ∀ init, Medium c inflate s (s.content init) ∧
        At (s.content init) s.sbOfs1 ((diskSuper c s).bytes c.crc32) ∧
        At (s.content init) s.sbOfs2 ((diskSuper c s).bytes c.crc32))
      (fun _ _ => True) (Sb.zero os) := by
  unfold mkfs
  apply (mkfsPrepare_spec rfl).seq _ fun _ _ _ => trivial
  rintro - s1 ⟨k1, k2, hp⟩
  apply (makeJournal_stored hinf hp).bind
  intro _ s2 h2
  apply (orFail_zero h2).bind
  intro _ s3 h3
  apply (orFail_zero (makeSuper_supered s3)).imp
  intro _ s4 hs hroom init
  obtain ⟨hmedium, hfirst⟩ := h3.medium hpos hs hroom init
  have hsecond := hs.second init
  rw [← hs.sameMemory.diskSuper, ← hs.sameMemory.plan.sbOfs2] at hsecond
  exact ⟨hmedium, hfirst, hsecond⟩

end Run

end Logfs.Mkfs
