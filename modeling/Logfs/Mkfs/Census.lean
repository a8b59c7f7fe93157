import Logfs.Mkfs.Uses

/-!
# Every segment of the device

What the segment table says of a segment is what the device has there: nothing that
`mkfs` wrote in a segment without an entry, a superblock or the journal in one that
is reserved, and in all others objects that read back, with the right checksums, and
take as many bytes as the entry counts.
-/

namespace Logfs.Mkfs

open Relation (ReflTransGen)
open Finset (range)

/-! ## A segment of objects -/

/-- The bytes of the device from the beginning of a segment on. -/
def segmentAt (c : Cfg) (dev : Buf) (segno : Nat) : Buf := fun i => dev (segno * c.segsize + i)

/-- A segment of level `l` on the device, in which the objects take `valid` bytes. -/
structure ObjectSegment (c : Cfg) (seg : Buf) (segno l valid : Nat) : Prop where
  header : readSegHeader seg =
    ⟨logfsCrc32 c.crc32 (peek seg 4 20), SegType.ostore.code, l, segno, 1, segno⟩
  found : ∀ f ∈ scanSegment c seg, f.Valid c.crc32 seg
  sum : ((scanSegment c seg).map fun f => objectHeadersize + f.len).sum = valid
  rest : ∀ i, segmentHeadersize + valid ≤ i → i < c.segsize → seg i = 0xff

/-- An object as far as it can be read back: numbers of 64 bits, and no level. -/
def Obj.onMedium (o : Obj) : Obj := { o with ino := o.ino % 2 ^ 64, bix := o.bix % 2 ^ 64, level := 0 }

section Objects

variable {c : Cfg} {o : Obj} {objs : List Obj} {l segno ofs : Nat} {seg : Buf}

theorem onMedium_bytes (c : Cfg) (o : Obj) : o.onMedium.bytes c = o.bytes c := by
  have hmod : ∀ n, be 8 (n % 2 ^ 64) = be 8 n := be_mod 8
  unfold Obj.bytes Obj.onMedium objectHeader objectHeaderBody
  dsimp only
  rw [hmod, hmod]

theorem onMedium_ok (o : Obj) : o.onMedium.call.Ok :=
  ⟨Nat.mod_lt _ (by decide), Nat.mod_lt _ (by decide), show 0 < maxLevels by decide⟩

theorem sizes_onMedium (objs : List Obj) : sizes (objs.map Obj.onMedium) = sizes objs := by
  unfold sizes
  rw [List.map_map]
  rfl

theorem chained_onMedium (h : Chained ofs objs) : Chained ofs (objs.map Obj.onMedium) := by
  induction objs generalizing ofs with
  | nil => trivial
  | cons o objs ih => exact ⟨h.1, ih h.2⟩

/-- What is found takes the bytes of what was stored. -/
theorem sum_found {fs : List Found} (h : fs.map Found.content = objs.map (·.call.content))
    (hlen : ∀ f ∈ fs, f.data.length = f.len) :
    (fs.map fun f => objectHeadersize + f.len).sum = sizes objs := by
  have hsize : ∀ o : Obj, o.size = objectHeadersize + o.call.content.2.2.2.length := fun o =>
    congrArg (objectHeadersize + ·) (peek_length ..).symm
  have hfound : ∀ f ∈ fs, objectHeadersize + f.len = objectHeadersize + f.content.2.2.2.length :=
    fun f hf => congrArg (objectHeadersize + ·) (hlen f hf).symm
  unfold sizes
  rw [List.map_congr_left hfound, funext hsize]
  have hmap := congrArg (List.map fun t => objectHeadersize + t.2.2.2.length) h
  rw [List.map_map, List.map_map] at hmap
  exact congrArg List.sum hmap

theorem scan_len {buf : Buf} {size turns pos : Nat} :
    ∀ f ∈ scan buf size turns pos, f.data.length = f.len := by
  induction turns generalizing pos with
  | zero => exact fun _ hf => by cases hf
  | succ turns ih =>
    intro f hf
    rw [scan] at hf
    dsimp only at hf
    split_ifs at hf
    · cases hf
    · cases hf
    · rcases List.mem_cons.1 hf with rfl | hf
      · exact peek_length ..
      · exact ih f hf

/-- The segment of an area is read back from where it was written. -/
theorem SegmentObjs.read (h : SegmentObjs c l segno objs) (hl : l < noAreas)
    (hsegno : segno < c.noSegs) (hseg : ∀ i < c.segsize, seg i = segmentBytes c l segno objs i) :
    ObjectSegment c seg segno l (sizes objs) := by
  have hfits := h.fits
  have hcount := length_le_sizes objs
  have hlt := c.noSegs_lt
  have hl256 : l < 256 := lt_trans hl (by decide)
  have hrest : ∀ i, segmentHeadersize + sizes objs ≤ i → i < c.segsize → seg i = 0xff :=
    fun i hi hi' => by
      rw [hseg i hi']
      apply padded_default
      rw [List.length_append, areaHeader_length, flatMap_bytes_length]
      exact hi
  have hok : ∀ o ∈ objs.map Obj.onMedium, o.call.Ok := by
    intro o ho
    obtain ⟨o, -, rfl⟩ := List.mem_map.1 ho
    exact onMedium_ok o
  have hat : ∀ o ∈ objs.map Obj.onMedium, At seg o.used (o.bytes c) := by
    intro o ho
    obtain ⟨o', ho', rfl⟩ := List.mem_map.1 ho
    obtain ⟨-, hbound⟩ := h.inside ho'
    rw [onMedium_bytes]
    refine (h.at ho').congr fun i _ hi => hseg i ?_
    rw [Obj.bytes_length] at hi
    exact lt_of_lt_of_le hi (hbound.trans hfits)
  have hturns : (objs.map Obj.onMedium).length < c.segsize := by
    rw [List.length_map]
    simp only [segmentHeadersize] at hfits
    omega
  have hsize := sizes_onMedium objs
  obtain ⟨hscan, hvalid⟩ := scan_spec hok hat (chained_onMedium h.chained)
    (by rwa [hsize] : _ ≤ c.segsize) (by rwa [hsize]) hturns
  refine ⟨?_, hvalid, ?_, hrest⟩
  · apply readSegHeader_eq (by omega) (by omega) (by decide) (by omega)
    have hhead := (at_append.1 (at_padded 0xff (areaHeader c l segno ++ objs.flatMap
      (Obj.bytes c)))).1
    refine hhead.congr fun i _ hi => hseg i ?_
    rw [areaHeader_length] at hi
    simp only [segmentHeadersize] at hi hfits
    omega
  · rw [← sizes_onMedium]
    exact sum_found hscan scan_len

end Objects

/-! ## All segments -/

/-- What the entry of a segment says is so on the device that the run has left. -/
inductive Accounted (c : Cfg) (s : Sb) (init : Buf) (segno : Nat) : SegEntry → Prop where
  | unused (h : ∀ x, InSegment c segno x → ¬ (s.sbOfs2 ≤ x ∧ x < s.sbOfs2 + c.secsize) →
      s.content init x = init x ∨ s.content init x = 0xff) : Accounted c s init segno .zero
  | bad (h : .erase segno false ∈ s.trace) : Accounted c s init segno badEntry
  | first (hofs : segno * c.segsize = s.sbOfs1)
    (h : SuperAt c (s.content init) (segno * c.segsize)) : Accounted c s init segno reservedEntry
  | second (h : segno = secondSegno c s) : Accounted c s init segno reservedEntry
  | journal {m : Nat} (hm : m < c.noJournalSegs) (h : s.journalSeg m = segno) :
    Accounted c s init segno reservedEntry
  | objects {l valid : Nat} (hl : l < noAreas) (hvalid : valid < c.segsize)
    (h : ObjectSegment c (segmentAt c (s.content init) segno) segno l valid) :
    Accounted c s init segno ⟨ecLevel 1 l, valid⟩

/-- The places that are reserved. -/
def Reserved (c : Cfg) (s : Sb) (segno : Nat) : Prop :=
  segno * c.segsize = s.sbOfs1 ∨ segno = secondSegno c s ∨
    ∃ m < c.noJournalSegs, s.journalSeg m = segno

section Run

variable {c : Cfg} {s s1 s2 s3 s' : Sb} {k k1 k2 : Nat} {os : List Outcome} {i : Nat} {init : Buf}

/-- What is erased whatever was there before has been erased, or nothing has been done to it. -/
theorem content_erased {init : Buf} {x : Nat} {bs : List Blit} (h : content eraseBuf bs x = 0xff) :
    content init bs x = init x ∨ content init bs x = 0xff := by
  induction bs with
  | nil => exact Or.inl rfl
  | cons b bs ih =>
    by_cases hx : b.ofs ≤ x ∧ x < b.ofs + b.len
    · rw [content_cons_of_mem hx.1 hx.2] at h ⊢
      exact Or.inr h
    · rw [content_cons_of_not_mem hx] at h ⊢
      exact ih h

/-- On flash the second superblock is in the last 4 KiB of its segment. -/
theorem Prepared.second_end (h : Prepared c k1 k2 (Sb.zero os) s') (hmtd : c.kind = .mtd) :
    s'.sbOfs2 + 0x1000 = (k2 + 1) * c.segsize := by
  obtain ⟨s1, s2, -, h2, rfl⟩ := h.steps
  have htwo := c.two_blocks_le
  cases h2 with
  | bdev hkind =>
    rw [hkind] at hmtd
    cases hmtd
  | mtd _ h =>
    obtain ⟨fails, -, hs⟩ := h.same
    rw [hs]
    dsimp only
    rw [Nat.add_mul, Nat.one_mul]
    omega

/-- The second superblock is not before the segment reserved for it, but for a device of one
segment. -/
theorem Prepared.second_behind (h : Prepared c k1 k2 (Sb.zero os) s') {n : Nat}
    (hn : n * c.segsize ≤ s'.sbOfs2) : k2 = k1 ∨ n ≤ k2 := by
  cases hkind : c.kind with
  | bdev =>
    obtain ⟨s1, s2, h1, h2, rfl⟩ := h.steps
    have hle := h2.le h1
    have htwo := c.two_blocks_le
    cases h2 with
    | bdev _ _ hlt h =>
      rcases Nat.eq_zero_or_pos k2 with rfl | hpos
      · exact Or.inl (Nat.le_zero.1 hle).symm
      · right
        have hge : 1 * c.segsize ≤ k2 * c.segsize := Nat.mul_le_mul_right _ hpos
        have hbound : k2 * c.segsize ≤ 2 ^ 32 * 2 ^ 30 :=
          Nat.mul_le_mul (by have := c.noSegs_lt; omega) c.segsize_le
        rw [h] at hn
        dsimp only at hn
        exact Nat.le_of_mul_le_mul_right (by omega) c.segsize_pos
    | mtd hmtd =>
      rw [hkind] at hmtd
      cases hmtd
  | mtd =>
    right
    have hend := h.second_end hkind
    by_contra hlt
    have hge : (k2 + 1) * c.segsize ≤ n * c.segsize := Nat.mul_le_mul_right _ (by omega)
    omega

/-- The state when the files are stored. -/
structure FilesStored (c : Cfg) (k1 k2 : Nat) (s : Sb) : Prop where
  separate : Separate c k1 s
  uses : Uses (Keeping c k1 k2 s) s
  bad : ∀ i, (s.segmentEntry i).ecLevel = badseg → .erase i false ∈ s.trace
  second : secondSegno c s = k2
  behind : ∀ n, n * c.segsize ≤ s.sbOfs2 → k2 = k1 ∨ n ≤ k2
  entry : s.segmentEntry k2 ≠ .zero
  sum : s.usedBytes = ∑ i ∈ range c.noSegs, (s.segmentEntry i).counted

theorem mkfsStore_filesStored (hp : Prepared c k1 k2 (Sb.zero os) s1) :
    Wp (mkfsStore c) (fun _ s => FilesStored c k1 k2 s) (fun _ _ => True) s1 := by
  apply (((mkfsStore_separate hp).and (mkfsStore_uses hp)).and (mkfsStore_spec hp.ready)).mono _
    fun _ _ _ => trivial
  rintro - s ⟨⟨hsep, huses⟩, hran⟩
  have hclosed := hsep.placements.closed
  have htable := hp.table.1.steps (hran.calm.steps_of_closed hclosed)
  have hplaces := hran.calm.samePlaces
  have hstuck : ¬ Stuck c s := fun ⟨l, hl, _⟩ => by
    rw [hclosed] at hl
    cases hl
  obtain ⟨-, hused, hsum⟩ := (hp.blank.conserved hran.calm).exact hstuck
  have hopen : openUsed s = 0 := openSum_closed hclosed _
  refine ⟨hsep, huses, htable.bad, ?_, fun n hn => hp.second_behind (by rwa [← hplaces.2]), ?_,
    by rw [hsum, hused, hopen, Nat.add_zero]⟩
  · rw [← hp.secondSegno]
    unfold secondSegno
    rw [hplaces.2]
  · intro hz
    obtain ⟨l, hl, -⟩ := htable.used k2 (Or.inr rfl) hz
    rw [hclosed] at hl
    cases hl

/-- What has become of the device since the files were stored: superblocks in their places, and
the journal in its first segment. -/
structure Closing (c : Cfg) (k : Nat) (s s' : Sb) : Prop where
  memory : SameMemory s s'
  first : ∀ init, SuperAt c (s'.content init) (k * c.segsize)
  keep : ∀ init i x, InSegment c i x → i ≠ k → i ≠ s.journalSeg 0 →
    ¬ (s.sbOfs2 ≤ x ∧ x < s.sbOfs2 + c.secsize) → s'.content init x = s.content init x
  trace : ∀ e ∈ s.trace, e ∈ s'.trace

theorem Supered.mem_trace {n : Nat} (h : Supered c n s s') {e : Event} (he : e ∈ s.trace) :
    e ∈ s'.trace := by
  obtain ⟨s1, w1, evs, h1, h2, -⟩ := h.writes
  rw [h2.same, h1.same]
  exact List.mem_append_right _ (List.mem_append_right _ he)

theorem Separate.closing {j : Buf} {je : List Nat} {w : DevWrite} (h : Separate c k s)
    (hpos : 1 ≤ c.noJournalSegs)
    (hd : Did [.done w true, .issue w] (s.journalSeg 0 * c.segsize % 2 ^ 32) c.segsize j
      (journalState s je) s3)
    (hs : Supered c c.secsize s3 s') (hroom : Roomy c s') : Closing c k s s' := by
  have hm : SameMemory s s3 := (journalState_same s je).trans (hd.sameMemory fun _ => rfl)
  have hm' : SameMemory s s' := hm.trans hs.sameMemory
  have hsecond := hroom.second
  have hlow := hroom.low
  rw [hm'.lastseg] at hsecond hlow
  rw [hm'.plan.sbOfs2] at hsecond
  have hsize := c.segsize_pos
  obtain ⟨hj, -, -⟩ := h.journal 0 hpos
  have hjlow : s.journalSeg 0 * c.segsize < 2 ^ 32 :=
    lt_of_lt_of_le (InSegment.lt_mul ⟨Nat.le_refl _, by omega⟩ hj.lt) hlow
  rw [Nat.mod_eq_of_lt hjlow] at hd
  have hofs1 := hm.plan.sbOfs1.trans h.sbOfs.1
  have hofs2 := hm.plan.sbOfs2
  refine ⟨hm', fun init => ?_, fun init i x hx hne hnej h2 => ?_, fun e he => hs.mem_trace ?_⟩
  · have hfirst := hs.first init (by rw [hm.plan.sbOfs1, hofs2]; exact h.sbOfs_lt hsecond)
    rw [hofs1] at hfirst
    exact superAt_bytes _ hfirst
  · rw [hs.outside init hofs1 hx hne (by rwa [hofs2]), hd.content]
    exact if_neg fun hc => hnej (hx.unique hc)
  · rw [hd.same]
    exact List.mem_append_right _ he

/-- Nothing was written to a segment that was never taken. -/
theorem Closing.unused (h : Closing c k s s') (hsep : Separate c k s) (hpos : 1 ≤ c.noJournalSegs)
    (hi : s.lastseg ≤ i) {x : Nat} (hx : InSegment c i x)
    (h2 : ¬ (s.sbOfs2 ≤ x ∧ x < s.sbOfs2 + c.secsize)) :
    s'.content init x = init x ∨ s'.content init x = 0xff := by
  have hk := hsep.first.1.lt
  have hj := (hsep.journal 0 hpos).1.lt
  rw [h.keep init i x hx (by omega) (by omega) h2]
  apply content_erased
  apply hsep.placements.image.erased x
  intro l segno p hput hin
  have hlt := hsep.placements.image.lt hput
  have heq := hin.unique hx
  omega

/-- A segment that was written for an area reads back. -/
theorem Closing.stored (h : Closing c k s s') (hsep : Separate c k s) (hpos : 1 ≤ c.noJournalSegs)
    (hroom : Roomy c s') {l : Nat} {p : DevWrite × List Obj} (hl : l < noAreas)
    (hi : i < c.noSegs) (hp : Put l i p s.trace)
    (he : s.segmentEntry i = ⟨ecLevel 1 l, sizes p.2⟩) :
    Accounted c s' init i ⟨ecLevel 1 l, sizes p.2⟩ := by
  have hsecond := hroom.second
  rw [h.memory.lastseg, h.memory.plan.sbOfs2] at hsecond
  have hsize := c.segsize_le
  have himage := hsep.placements.image
  obtain ⟨segno, hw, hso⟩ := hsep.placements.fillings.writes l p hp.mem
  have htarget := hp.target
  rw [hw, Target.area.injEq] at htarget
  obtain ⟨-, rfl⟩ := htarget
  have hfits := hso.fits
  -- no such segment is reserved
  have hne : ∀ x, Kept x s → segno ≠ x := by
    rintro x hx rfl
    have hreserved := hx.entry
    rw [he] at hreserved
    simp only [reserved] at hreserved
    omega
  refine .objects hl (by simp only [segmentHeadersize] at hfits; omega) (hso.read hl hi ?_)
  intro x hx
  have hin : InSegment c segno (segno * c.segsize + x) := inSegment_add hx
  have hlt := hin.lt_mul (himage.lt hp)
  unfold segmentAt
  rw [h.keep init _ _ hin (hne _ hsep.first.1) (hne _ (hsep.journal 0 hpos).1) (by omega),
    himage.content hp init x hx, hw]

/-- The segments are as the table says. -/
theorem FilesStored.accounted (h : FilesStored c k1 k2 s) (hc : Closing c k1 s s')
    (hpos : 1 ≤ c.noJournalSegs) (hroom : Roomy c s') (hi : i < c.noSegs) :
    Accounted c s' init i (s'.segmentEntry i) := by
  have hplan := hc.memory.plan
  rw [hc.memory.segmentEntry]
  cases h.uses i with
  | unused hlast he =>
    rw [he]
    refine .unused fun x hx h2 => ?_
    rw [hplan.sbOfs2] at h2
    exact hc.unused h.separate hpos hlast hx h2
  | opened ho =>
    rw [h.separate.placements.closed] at ho
    cases ho
  | bad _ he =>
    rw [he]
    exact .bad (hc.trace _ (h.bad i (by rw [he]; rfl)))
  | kept hR he =>
    rw [he]
    rcases hR with (rfl | rfl) | ⟨m, hlt, hseg⟩
    · exact .first (hplan.sbOfs1.trans h.separate.sbOfs.1).symm (hc.first init)
    · refine .second ?_
      rw [← h.second]
      unfold secondSegno
      rw [hplan.sbOfs2]
    · exact .journal hlt (by rw [hplan.journalSeg, hseg])
  | stored hl hp he =>
    rw [he]
    exact hc.stored h.separate hpos hroom hl hi hp he

/-- What is reserved is not to be used. -/
theorem FilesStored.reserved (h : FilesStored c k1 k2 s) (hc : Closing c k1 s s')
    (hroom : Roomy c s') (hi : Reserved c s' i) : (s'.segmentEntry i).valid = Mkfs.reserved := by
  have hplan := hc.memory.plan
  rw [hc.memory.segmentEntry]
  rcases hi with hofs | hsecond | ⟨m, hm, rfl⟩
  · rw [hplan.sbOfs1, h.separate.sbOfs.1] at hofs
    rw [Nat.eq_of_mul_eq_mul_right c.segsize_pos hofs]
    exact h.separate.first.1.entry
  · have heq : i = k2 := by
      rw [hsecond, ← h.second]
      unfold secondSegno
      rw [hplan.sbOfs2]
    have hbehind := h.behind s.lastseg (by
      rw [← hc.memory.lastseg, ← hplan.sbOfs2]
      exact hroom.second)
    rw [heq]
    rcases hbehind with hk | hlast
    · rw [hk]
      exact h.separate.first.1.entry
    · cases h.uses k2 with
      | unused _ he => exact absurd he h.entry
      | opened ho =>
        rw [h.separate.placements.closed] at ho
        cases ho
      | bad hlt => omega
      | kept _ he =>
        rw [he]
        rfl
      | stored _ hp =>
        have hlt := h.separate.placements.image.lt hp
        omega
  · rw [hplan.journalSeg]
    exact (h.separate.journal m hm).1.entry

/-- `make_journal` writes one segment. -/
theorem makeJournal_did (s : Sb) :
    Wp (makeJournal c) (fun r s3 => r = 0 → ∃ j je w, Did [.done w true, .issue w]
        (s.journalSeg 0 * c.segsize % 2 ^ 32) c.segsize j (journalState s je) s3)
      (fun _ _ => True) s := by
  apply (makeJournal_spec (D := fun _ _ => True) fun _ _ _ => trivial).mono _ fun _ _ _ => trivial
  rintro r s3 ⟨j, je, -, ⟨-, hd⟩ | ⟨rfl, -⟩⟩
  · exact fun _ => ⟨j, je, _, hd⟩
  · exact fun hr => absurd hr (by decide)

theorem mkfs_closing (hpos : 1 ≤ c.noJournalSegs) (os : List Outcome) :
    Wp (mkfs c) (fun _ s' => Roomy c s' → ∃ k1 k2 s, FilesStored c k1 k2 s ∧ Closing c k1 s s')
      (fun _ _ => True) (Sb.zero os) := by
  unfold mkfs
  apply (mkfsPrepare_spec rfl).seq _ fun _ _ _ => trivial
  rintro - s1 ⟨k1, k2, hp⟩
  apply (mkfsStore_filesStored hp).bind
  intro _ s2 h2
  apply (orFail_zero (makeJournal_did s2)).bind
  rintro - s3 ⟨j, je, w, hd⟩
  apply (orFail_zero (makeSuper_supered s3)).imp
  intro _ s4 hs hroom
  exact ⟨k1, k2, s2, h2, h2.separate.closing hpos hd hs hroom⟩

end Run

/-- The table that a reader finds on the device is right about every segment of it, and counts the
bytes that the dynamic superblock says are used. -/
structure TrueTable (c : Cfg) (s : Sb) (init : Buf) (v : View) (table : Nat → SegEntry) : Prop where
  read : ∀ segno < c.noSegs, v.segmentEntry c.crc32 (s.content init) segno = some (table segno)
  accounted : ∀ segno < c.noSegs, Accounted c s init segno (table segno)
  reserved : ∀ segno, Reserved c s segno → (table segno).valid = Mkfs.reserved
  sum : v.usedBytes = ∑ segno ∈ range c.noSegs, (table segno).counted

/-- The segment table on the device says which segments were never used, which are bad, which are
reserved for superblocks and the journal, and in which the objects are; of these all read back and
take the bytes the entry counts. -/
theorem mkfs_segments (c : Cfg) (inflate : List UInt8 → List UInt8) (os : List Outcome) (s : Sb)
    (hinf : ∀ inp n, (c.deflate inp n).1 = true → inflate (c.deflate inp n).2 = inp)
    (hpos : 1 ≤ c.noJournalSegs) (h : mkfs c (Sb.zero os) = .ok () s) (hroom : Roomy c s)
    (init : Buf) :
    ∃ v, mount c.crc32 inflate (s.content init) s.sbOfs1 = some v ∧
      ∃ table, TrueTable c s init v table := by
  obtain ⟨hmedium, hfirst, -⟩ := (mkfs_medium hinf hpos os).of_ok h hroom init
  obtain ⟨k1, k2, s2, hfiles, hclosing⟩ := (mkfs_closing hpos os).of_ok h hroom
  refine ⟨viewOf c s, hmedium.mount hpos hfirst, s.segmentEntry, fun _ hi => hmedium.table hi,
    fun _ => hfiles.accounted hclosing hpos hroom, fun _ => hfiles.reserved hclosing hroom, ?_⟩
  rw [hmedium.shows.usedBytes, hclosing.memory.usedBytes, hfiles.sum, hclosing.memory.segmentEntry]

theorem mkfs_segments_sixteen : let s := after (mkfs sixteenGiB) (badStart 0)
    ∃ v, mount byteSum restoreZeros (s.content eraseBuf) s.sbOfs1 = some v ∧
      ∃ table, TrueTable sixteenGiB s eraseBuf v table := by
  obtain ⟨_, h⟩ := ok_of_returns returns_sixteen
  exact mkfs_segments sixteenGiB restoreZeros _ _ restoreZeros_stripZeros (by decide) h roomy_sixteen
    eraseBuf

end Logfs.Mkfs
