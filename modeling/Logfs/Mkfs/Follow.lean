import Logfs.Mkfs.Lookup

/-!
# Following the pointers of an inode

The offsets that `logfs_segment_write` returns are put into inodes and indirect blocks.  Whatever
the device holds, they can be followed in the objects that were written out: a pointer
leads to the indirect block of the file, of the level and with the index that the slot is
for, which was given this offset.  The offset alone may be that of several
blocks, since it is cut off to 32 bits.
-/

namespace Logfs.Mkfs

/-- The slots of block `m` of a level of the file, if that was written out at the pointer. -/
def storedSlots (c : Cfg) (ino : Nat) (objs : List Obj) (level m p : Nat) : Option (Nat → Nat) :=
  (storedAt c ino objs level (blockName level m) p).map fun o i => beNat (peek o.data (8 * i) 8)

/-- The number of the top indirect block, which the inode has the pointer to. -/
def topNumber (c : Cfg) (ino : Nat) (objs : List Obj) (di : DiskInode) : Nat :=
  match objs.find? fun o => o.ino = ino ∧ o.level = di.height ∧ o.ofs c = di.data indirectIndex with
  | some o => o.bix / 2 ^ (blockBits * di.height)
  | none => 0

/-- The pointer to block `bix` of an inode, zero where there is none, and nothing where a pointer
does not lead to an indirect block. -/
def resolveStored (c : Cfg) (ino : Nat) (objs : List Obj) (di : DiskInode) (bix : Nat) :
    Option Nat :=
  if bix < i0Blocks then some (di.data bix)
  else Radix.follow blockFactor (storedSlots c ino objs) di.height (topNumber c ino objs di)
    (di.data indirectIndex) bix

/-- Every index leads to the offset that was returned for its last write, and nowhere if there was
none. -/
structure Resolves (c : Cfg) (ino : Nat) (objs : List Obj) (di : DiskInode) : Prop where
  found : ∀ bix ofs, lastOfs c ino objs bix = some ofs →
    resolveStored c ino objs di bix = some ofs
  hole : ∀ bix, lastOfs c ino objs bix = none → bix < maxbix di.height →
    resolveStored c ino objs di bix = some 0

section Follow

variable {c : Cfg} {s : Sb} {ino level m p : Nat} {i : Inode} {objs : List Obj} {block : Block}
  {file : Nat → Option Call} {f : Nat → Option Nat}

/-- Every object is behind the header of its segment, and in front of its end. -/
theorem Fillings.used_lt (hf : Fillings c s) {o : Obj} (ho : o ∈ objects s.trace) :
    segmentHeadersize ≤ o.used ∧ o.used < c.segsize := by
  have hmem : o ∈ objectsOf o.area s.trace :=
    List.mem_filter.2 ⟨List.mem_reverse.2 ho, decide_eq_true rfl⟩
  have hplace : ∃ segno objs, o ∈ objs ∧ SegmentObjs c o.area segno objs := by
    rw [hf.all] at hmem
    rcases List.mem_append.1 hmem with hmem | hmem
    · obtain ⟨p, hp, hop⟩ := List.mem_flatMap.1 hmem
      obtain ⟨segno, -, hso⟩ := hf.writes _ p hp
      exact ⟨segno, p.2, hop, hso⟩
    · split_ifs at hmem with hopen
      · exact ⟨_, _, hmem, (hf.area _ hopen).objs⟩
      · cases hmem
  obtain ⟨segno, objs, hobjs, hso⟩ := hplace
  have hin := hso.inside hobjs
  have hfits := hso.fits
  have hsize : 28 ≤ o.size := Nat.le_add_right _ _
  omega

/-- No object is at offset zero. -/
theorem Fillings.ofs_ne_zero (hf : Fillings c s) : ∀ o ∈ objects s.trace, o.ofs c ≠ 0 := by
  intro o ho
  obtain ⟨hle, hlt⟩ := hf.used_lt ho
  obtain ⟨k, -, hofs⟩ := ofs_eq c hlt
  have : 0 < segmentHeadersize := by decide
  omega

/-- The slots of a block are those of the object. -/
theorem BlockAt.storedSlots (h : BlockAt c ino objs level m p block)
    (hpos : ∀ o ∈ objs, o.ofs c ≠ 0) :
    p ≠ 0 ∧ ∃ slots, storedSlots c ino objs level m p = some slots ∧
      ∀ i < 512, slots i = block i := by
  obtain ⟨hlt, o, hst, -, hdata⟩ := h
  obtain ⟨ho, rfl⟩ := storedAt_eq_some hst
  refine ⟨hpos o ho, _, by rw [Mkfs.storedSlots, hst, Option.map_some], fun i hi => ?_⟩
  rw [hdata]
  exact (block.bytes_at i).beNat_eq (lt_trans (hlt i hi) (by decide))

/-- The top block is the only one of its level. -/
theorem Flushed.topNumber (h : BlockAt c ino objs i.di.height m (i.di.data indirectIndex) block)
    (hsole : ∀ o ∈ objs, o.ino = ino → o.level = i.di.height → o.bix = blockName i.di.height m) :
    topNumber c ino objs i.di = m := by
  obtain ⟨-, o, hst, -⟩ := h
  unfold Mkfs.topNumber
  split
  · next o' ho' =>
    have hp := List.find?_some ho'
    have hp := of_decide_eq_true hp
    rw [hsole o' (List.mem_of_find?_eq_some ho') hp.1 hp.2.1, blockName_div]
  · next hnone =>
    have hp := List.find?_some hst
    have hp := of_decide_eq_true hp
    refine absurd ?_ (List.find?_eq_none.1 hnone o (storedAt_eq_some hst).1)
    exact decide_eq_true ⟨hp.1, hp.2.1, hp.2.2.2⟩

/-- Following the pointers always leads to an indirect block. -/
theorem Flushed.resolveStored (h : Flushed c ino i objs f) (hpos : ∀ o ∈ objs, o.ofs c ≠ 0) :
    ∃ find, Finds i.di.height f find ∧
      ∀ bix, resolveStored c ino objs i.di bix = some (find bix) := by
  by_cases h0 : i.di.height = 0
  · refine ⟨fun bix => if bix < i0Blocks then (f bix).getD 0 else i.di.data indirectIndex,
      ⟨h.spans, fun bix hbix => if_pos hbix, fun hne => absurd h0 hne⟩, fun bix => ?_⟩
    dsimp only [Mkfs.resolveStored]
    split_ifs with hbix
    · rw [h.direct bix hbix]
    · rw [h0]
      rfl
  · obtain ⟨m, hex, hmax, hsole, g, block, hl, hb, hs⟩ := h.top h0
    have hnumber := Flushed.topNumber hb hsole
    have hsucc : i.di.height - 1 + 1 = i.di.height := by omega
    rw [← hsucc] at hb
    have hfollow := fun bix => hl.follow_top (by decide) (fun _ _ _ _ hb => hb.storedSlots hpos)
      hb hs bix
    rw [hsucc] at hfollow
    refine ⟨fun bix => if bix < i0Blocks then (f bix).getD 0 else
        (indirect f (m * 512 ^ i.di.height + bix % 512 ^ i.di.height)).getD 0,
      ⟨h.spans, fun bix hbix => if_pos hbix, fun _ => ⟨m, hex, hmax, fun bix hbix =>
        if_neg (by omega)⟩⟩, fun bix => ?_⟩
    dsimp only [Mkfs.resolveStored]
    split_ifs with hbix
    · rw [h.direct bix hbix]
    · rw [hnumber]
      exact hfollow bix

/-- The pointers of a file lead to what was returned just when it is not ragged. -/
theorem Flushed.resolves_iff (h : Flushed c ino i objs f) (hk : Pointing c ino objs file f)
    (hpos : ∀ o ∈ objs, o.ofs c ≠ 0) : Resolves c ino objs i.di ↔ ¬ Ragged file := by
  obtain ⟨find, hfinds, hfind⟩ := h.resolveStored hpos
  constructor
  · intro hres hr
    obtain ⟨bix, hbix, hzero⟩ := hfinds.ragged hk hr
    obtain ⟨ca, hca⟩ := Option.ne_none_iff_exists'.1 hbix
    obtain ⟨o, ho, -, hf⟩ := hk.written bix ca hca
    rw [hk.newest] at hf
    have hfound := hres.found bix _ hf
    rw [hfind, hzero] at hfound
    exact hpos o ho (Option.some_inj.1 hfound).symm
  · intro hr
    refine ⟨fun bix ofs hofs => ?_, fun bix hnone hlt => ?_⟩
    · rw [← hk.newest] at hofs
      have hbix : file bix ≠ none := (hk.ne_none bix).1 (by rw [hofs]; exact Option.some_ne_none _)
      rw [hfind, hfinds.eq hk hr (Or.inl hbix), hofs]
      rfl
    · rw [← hk.newest] at hnone
      rw [hfind, hfinds.eq hk hr (Or.inr hlt), hnone]
      rfl

end Follow

/-- After any calls of `logfs_file_write` and `logfs_file_flush` the pointers of a file that was
flushed lead to the offsets that were returned for its blocks just when it is not ragged. -/
theorem files_resolve_iff (c : Cfg) (ops : List FileOp) (s0 s1 : Sb) (hblank : Blank c s0)
    (hops : OpsAllowed [] ops) (h1 : runFileOps c ops s0 = .ok 0 s1) :
    ∀ ino, .flush ino ∈ ops →
      (Resolves c ino (objects s1.trace) (inodeAt s1 ino).di ↔ ¬ Ragged (filesOf ops ino)) := by
  intro ino hino
  obtain ⟨-, hcalm, -, hheld⟩ :=
    ((runFileOps_held ops s0 _ _ hblank.ready hblank.filesHeld hops).of_ok h1).resolve_right
      (by decide)
  obtain ⟨f, hk, hf⟩ := hheld.stored ino (mem_foldl_mark ops [] hino)
  exact hf.resolves_iff hk (hcalm.fillings hblank.fillings).ofs_ne_zero

theorem files_resolve_sixteen :
    let s := after (runFileOps sixteenGiB threeWrites) (badStart 0)
    Resolves sixteenGiB 20 (objects s.trace) (inodeAt s 20).di := by
  intro s
  have h1 := ok_of_returnsZero (m := runFileOps sixteenGiB threeWrites) (s := badStart 0)
    (by decide +kernel)
  exact (files_resolve_iff sixteenGiB threeWrites (badStart 0) s (blank_zero _ _)
    threeWrites_allowed h1 20 (by simp [threeWrites])).2 threeWrites_not_ragged

/-- Two blocks behind indirect blocks, the second of them the first one that a tree of height one
has no room for. -/
def twoTops : List FileOp :=
  [.write 20 20 0 .block fun _ => 1, .write 20 512 0 .block fun _ => 2, .flush 20]

/-- `grow_inode` leaves the height at one, and the pointer to block 20 is lost. -/
theorem twoTops_lost :
    ¬ ∀ (c : Cfg) (ops : List FileOp) (s0 s1 : Sb), Blank c s0 → OpsAllowed [] ops →
      runFileOps c ops s0 = .ok 0 s1 → ∀ ino, .flush ino ∈ ops →
        Resolves c ino (objects s1.trace) (inodeAt s1 ino).di := by
  intro h
  have h1 := ok_of_returnsZero (m := runFileOps sixteenGiB twoTops) (s := badStart 0)
    (by decide +kernel)
  have hops : OpsAllowed [] twoTops := by
    simp [twoTops, OpsAllowed, FileOp.Allowed, FileOp.mark, maxbix, blockBits]
  have hres := h sixteenGiB twoTops (badStart 0) _ (blank_zero _ _) hops h1 20 (by simp [twoTops])
  have hlast : lastOfs sixteenGiB 20 (objects (after (runFileOps sixteenGiB twoTops)
      (badStart 0)).trace) 20 = some 24 := by decide +kernel
  have hzero : resolveStored sixteenGiB 20 (objects (after (runFileOps sixteenGiB twoTops)
      (badStart 0)).trace) (inodeAt (after (runFileOps sixteenGiB twoTops) (badStart 0)) 20).di 20 =
      some 0 := by decide +kernel
  have hfound := hres.found 20 _ hlast
  rw [hzero] at hfound
  exact absurd hfound (by decide)

end Logfs.Mkfs
