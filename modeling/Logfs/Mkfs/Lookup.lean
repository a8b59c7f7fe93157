import Logfs.Mkfs.Indirect
import Logfs.Mkfs.Pointers

/-!
# Reading a file back

A block is found from the inode: by a pointer in the inode itself, or from the
one to the top indirect block down, one slot of each block on the way.  On the
device of a run in which files were written and flushed that leads to what was
written last, but for the files whose greatest index is the very one at which
another level of indirect blocks would be needed.
-/

namespace Logfs.Mkfs

/-! ## Reading -/

/-- The pointer in slot `i` of the indirect block at `p` of the device. -/
def slotAt (dev : Buf) (p i : Nat) : Nat := beNat (peek dev (p + objectHeadersize + 8 * i) 8)

/-- The pointer to block `bix` of an inode, zero where there is none. -/
def resolve (dev : Buf) (di : DiskInode) (bix : Nat) : Nat :=
  if bix < i0Blocks then di.data bix
  else Radix.descend blockFactor (slotAt dev) di.height (di.data indirectIndex) bix

/-- The blocks of a file are where the inode says, and nothing else is. -/
structure ReadsBack (c : Cfg) (file : Nat → Option Call) (di : DiskInode) (dev : Buf) : Prop where
  found : ∀ bix ca, file bix = some ca →
    resolve dev di bix ≠ 0 ∧ At dev (resolve dev di bix) (ca.bytes c)
  hole : ∀ bix, file bix = none → bix < maxbix di.height → resolve dev di bix = 0

/-- The greatest block that is written is the first behind all that a tree of this height has room
for, and it is not the only one that is not in the inode. -/
def Ragged (file : Nat → Option Call) : Prop :=
  ∃ height, height ≠ 0 ∧ file (maxbix height) ≠ none ∧
    (∀ bix, file bix ≠ none → bix ≤ maxbix height) ∧
    ∃ bix, i0Blocks ≤ bix ∧ bix < maxbix height ∧ file bix ≠ none

section Slots

variable {c : Cfg} {dev : Buf} {o : Obj} {block : Block} {p i : Nat}

theorem Block.bytes_at (block : Block) (i : Nat) : At block.bytes (8 * i) (be 8 (block i)) := by
  rw [at_iff]
  intro k hk
  rw [be_length] at hk
  unfold Block.bytes
  rw [Nat.mul_add_div (by decide), Nat.div_eq_of_lt hk, Nat.add_zero, Nat.mul_add_mod,
    Nat.mod_eq_of_lt hk]

/-- The slots of a block on the device. -/
theorem slotAt_eq (hat : At dev p (o.bytes c)) (htype : o.type = .block)
    (hdata : o.data = block.bytes) (hi : i < 512) (hlt : block i < 2 ^ 32) :
    slotAt dev p i = block i := by
  have hdev := (at_append.1 hat).2
  rw [objectHeader_length, htype, hdata] at hdev
  rw [at_iff, peek_length] at hdev
  refine At.beNat_eq ?_ (lt_trans hlt (by decide))
  rw [at_iff]
  intro k hk
  rw [be_length] at hk
  have hin : 8 * i + k < objLen .block := by
    simp only [objLen, blocksize, blockshift]
    omega
  have hb := at_iff.1 (block.bytes_at i) k (by rwa [be_length])
  rw [Nat.add_assoc, hdev _ hin, ← hb, List.getD_eq_getElem _ _ (by simpa using hin), peek_getElem,
    Nat.zero_add]

end Slots

/-! ## After the flush -/

/-- An inode whose indirect blocks are stored. -/
structure Flushed (c : Cfg) (ino : Nat) (i : Inode) (objs : List Obj) (f : Nat → Option Nat) :
    Prop where
  direct : ∀ b < i0Blocks, i.di.data b = (f b).getD 0
  rest : i.di.height = 0 → ∀ b, i0Blocks ≤ b → i.di.data b = 0
  spans : Spans i.di.height f
  top : i.di.height ≠ 0 → ∃ m, (∃ b, b / 512 ^ i.di.height = m ∧ indirect f b ≠ none) ∧
    (∀ b, indirect f b ≠ none → b / 512 ^ i.di.height ≤ m) ∧
    (∀ o ∈ objs, o.ino = ino → o.level = i.di.height → o.bix = blockName i.di.height m) ∧
    ∃ g block, Radix.Layers 512 (BlockAt c ino objs) (indirect f) (i.di.height - 1) g ∧
      BlockAt c ino objs i.di.height m (i.di.data indirectIndex) block ∧
      ∀ s < 512, block s = (g (512 * m + s)).getD 0

section Flushed

variable {c : Cfg} {ino : Nat} {i i' : Inode} {objs objs' new : List Obj} {f : Nat → Option Nat}

theorem setData_of_ne {b n ofs : Nat} (h : b ≠ n) : (setData i n ofs).di.data b = i.di.data b :=
  Function.update_of_ne h _ _

theorem setData_self {n ofs : Nat} : (setData i n ofs).di.data n = ofs := Function.update_self _ _ _

/-- Objects of other files do not matter. -/
theorem Flushed.mono (h : Flushed c ino i objs f) (hnew : ∀ o ∈ new, o.ino ≠ ino) :
    Flushed c ino i (new ++ objs) f where
  direct := h.direct
  rest := h.rest
  spans := h.spans
  top h0 := by
    obtain ⟨m, hex, hmax, hsole, g, block, hl, hb, hs⟩ := h.top h0
    have hmono : ∀ {level m p block}, BlockAt c ino objs level m p block →
        BlockAt c ino (new ++ objs) level m p block := fun hb =>
      hb.mono fun o ho hino => absurd hino (hnew o ho)
    refine ⟨m, hex, hmax, fun o ho hino => ?_, g, block, hl.mono fun _ _ _ _ _ => hmono, hmono hb, hs⟩
    rcases List.mem_append.1 ho with ho | ho
    · exact absurd hino (hnew o ho)
    · exact hsole o ho hino

/-- `logfs_file_flush` stores all indirect blocks up to the last one of the top level. -/
theorem Unflushed.flush (h : Unflushed i f) (hplain : ∀ o ∈ objs, o.ino = ino → o.level = 0)
    (hf : FileFlushed c ino (i, objs) (i', objs')) : Flushed c ino i' objs' f := by
  generalize hx : (i, objs) = x at hf
  generalize hy : (i', objs') = y at hf
  cases hf with
  | flat h0 =>
    rw [← hx, Prod.mk.injEq] at hy
    obtain ⟨rfl, rfl⟩ := hy
    rw [← hx] at h0
    exact ⟨h.direct, fun _ => h.rest, h.spans, fun hne => absurd h0 hne⟩
  | @tall y height bix block o hheight h0 hlevels hlast ho =>
    subst hx
    rw [Prod.mk.injEq] at hy
    obtain ⟨rfl, rfl⟩ := hy
    dsimp only at hheight
    obtain ⟨⟨g, hg⟩, hroot⟩ := (h.flushing objs).all hlevels
    rw [Nat.zero_add] at hg
    have hsucc : height - 1 + 1 = height := by omega
    have hp := hg.pointed
    have hused := hg.used
    rw [hsucc] at hp hused
    have htop : o.level = height := congrArg Call.level ho
    have hst : (setData ((setTree y.1 height ((y.1.blockTree height).erase bix)).grow o.size)
        indirectIndex (o.ofs c)).di.height = i.di.height := hroot.height
    obtain ⟨hget, hgreatest⟩ := OrdMap.last_eq_some hlast
    obtain ⟨m, rfl⟩ := hp.named bix (by rw [hget]; exact Option.some_ne_none block)
    refine ⟨fun b hb => ?_, fun hflat => absurd (hst.symm.trans hflat) (hheight ▸ h0),
      by rw [hst]; exact h.spans, fun _ => ?_⟩
    · rw [setData_of_ne (by unfold indirectIndex; omega), ← h.direct b hb]
      exact congrFun hroot.data b
    · rw [hst, hheight]
      refine ⟨m, (hused m).1 (by rw [hget]; exact Option.some_ne_none block), fun b hb => ?_,
        fun o' ho' hino hlevel => ?_, g, block, hg.layers.mono fun k hk _ _ _ hb => ?_, ?_,
        hp.slots m block hget⟩
      · exact le_of_blockName_le (hgreatest _ ((hused _).2 ⟨b, rfl, hb⟩))
      · -- the other objects of the file are of the levels below
        rcases List.mem_cons.1 ho' with rfl | ho'
        · exact congrArg Call.bix ho
        · obtain ⟨new, hy, hnew⟩ := hroot.adds
          rw [hy] at ho'
          rcases List.mem_append.1 ho' with ho' | ho'
          · have := (hnew o' ho').2
            omega
          · have := hplain o' ho' hino
            omega
      · exact hb.cons fun hlevel _ => by omega
      · rw [setData_self]
        exact blockAt_cons_self (fun _ => hp.slot_lt hget) ho

end Flushed

/-! ## What an inode leads to -/

/-- The offset of the object that was last stored for a block of the file. -/
def lastOfs (c : Cfg) (ino : Nat) (objs : List Obj) (bix : Nat) : Option Nat :=
  (objs.find? fun o => o.ino = ino ∧ o.level = 0 ∧ o.bix = bix).map (Obj.ofs c)

/-- `f` has the pointers to the objects of the blocks of the file. -/
structure Pointing (c : Cfg) (ino : Nat) (objs : List Obj) (file : Nat → Option Call)
    (f : Nat → Option Nat) : Prop where
  newest : f = lastOfs c ino objs
  written : ∀ b ca, file b = some ca → ∃ o ∈ objs, o.call = ca ∧ f b = some (o.ofs c)
  unwritten : ∀ b, file b = none → f b = none

/-- The objects are on the device, where the pointers say. -/
def OnDevice (c : Cfg) (objs : List Obj) (dev : Buf) : Prop :=
  ∀ o ∈ objs, o.ofs c ≠ 0 ∧ At dev (o.ofs c) (o.bytes c)

/-- What a reader finds at the indices of a file of this height: what was written there, or, where
there are indirect blocks, at the same place behind the top block. -/
structure Finds (height : Nat) (f : Nat → Option Nat) (find : Nat → Nat) : Prop where
  spans : Spans height f
  direct : ∀ bix < i0Blocks, find bix = (f bix).getD 0
  behind : height ≠ 0 → ∃ m, (∃ b, b / 512 ^ height = m ∧ indirect f b ≠ none) ∧
    (∀ b, indirect f b ≠ none → b / 512 ^ height ≤ m) ∧ ∀ bix, i0Blocks ≤ bix →
      find bix = (indirect f (m * 512 ^ height + bix % 512 ^ height)).getD 0

section Read

variable {c : Cfg} {ino height : Nat} {i : Inode} {objs : List Obj} {file : Nat → Option Call}
  {f : Nat → Option Nat} {find : Nat → Nat} {dev : Buf} {bix : Nat}

theorem OnDevice.slots (h : OnDevice c objs dev) (level m p : Nat) (block : Block)
    (hb : BlockAt c ino objs level m p block) : p ≠ 0 ∧ ∀ i < 512, slotAt dev p i = block i := by
  obtain ⟨hlt, o, hst, htype, hdata⟩ := hb
  obtain ⟨ho, rfl⟩ := storedAt_eq_some hst
  obtain ⟨h0, hat⟩ := h o ho
  exact ⟨h0, fun i hi => slotAt_eq hat htype hdata hi (hlt i hi)⟩

theorem maxbix_eq (height : Nat) : maxbix height = 512 ^ height := by
  rw [maxbix, blockBits, Nat.pow_mul]

/-- The slots of the blocks on the device lead there. -/
theorem Flushed.finds (h : Flushed c ino i objs f) (hdev : OnDevice c objs dev) :
    Finds i.di.height f (resolve dev i.di) := by
  refine ⟨h.spans, fun bix hbix => ?_, fun h0 => ?_⟩
  · rw [resolve, if_pos hbix, h.direct bix hbix]
  · obtain ⟨m, hex, hmax, -, g, block, hl, hb, hs⟩ := h.top h0
    refine ⟨m, hex, hmax, fun bix hbix => ?_⟩
    have hsucc : i.di.height - 1 + 1 = i.di.height := by omega
    rw [← hsucc] at hb
    have hd := hl.descend_top (by decide) hdev.slots hb hs bix
    rw [hsucc] at hd
    rw [resolve, if_neg (by omega), ← hd]
    rfl

/-- Without indirect blocks nothing is behind any. -/
theorem Spans.height_ne_zero (h : Spans height f) {b : Nat} (hb : indirect f b ≠ none) :
    height ≠ 0 := by
  intro h0
  have hle := h.reach b hb
  have h16 := (indirect_ne_none.1 hb).1
  rw [h0] at hle
  exact absurd (le_trans h16 hle) (by decide)

theorem Spans.none_of_gt (h : Spans height f) {b : Nat} (hb : maxbix height < b) :
    indirect f b = none := by
  by_contra hne
  exact absurd (h.reach b hne) (by omega)

theorem Pointing.ne_none (h : Pointing c ino objs file f) (b : Nat) : f b ≠ none ↔ file b ≠ none := by
  constructor
  · exact mt (h.unwritten b)
  · intro hb
    obtain ⟨ca, hca⟩ := Option.ne_none_iff_exists'.1 hb
    obtain ⟨o, -, -, hf⟩ := h.written b ca hca
    rw [hf]
    exact Option.some_ne_none _

theorem i0Blocks_le_maxbix (h0 : height ≠ 0) : i0Blocks ≤ maxbix height :=
  le_trans (show i0Blocks ≤ maxbix 1 by decide) (maxbix_mono (Nat.pos_of_ne_zero h0))

/-- With one block at the top everything below is found. -/
theorem Finds.of_single (h : Finds height f find) (h0 : height ≠ 0)
    (hlast : f (maxbix height) = none) (hind : i0Blocks ≤ bix) (hlt : bix < maxbix height) :
    find bix = (f bix).getD 0 := by
  obtain ⟨m, ⟨b, rfl, hb⟩, -, hres⟩ := h.behind h0
  have hblt : b < maxbix height := by
    refine lt_of_le_of_ne (h.spans.reach b hb) ?_
    rintro rfl
    exact (indirect_ne_none.1 hb).2 hlast
  rw [hres bix hind, ← maxbix_eq, Nat.div_eq_of_lt hblt, Nat.zero_mul, Nat.zero_add,
    Nat.mod_eq_of_lt hlt, indirect_of_le hind]

/-- With two of them the second one is found. -/
theorem Finds.of_double (h : Finds height f find) (h0 : height ≠ 0)
    (hlast : f (maxbix height) ≠ none) (hind : i0Blocks ≤ bix) :
    find bix = (indirect f (maxbix height + bix % maxbix height)).getD 0 := by
  obtain ⟨m, ⟨b, rfl, hb⟩, hmax, hres⟩ := h.behind h0
  have hpos := maxbix_pos height
  have hm : b / maxbix height = 1 := by
    have h1 := hmax _ (indirect_ne_none.2 ⟨i0Blocks_le_maxbix h0, hlast⟩)
    rw [← maxbix_eq, Nat.div_self hpos] at h1
    have h2 := Nat.div_le_div_right (c := maxbix height) (h.spans.reach b hb)
    rw [Nat.div_self hpos] at h2
    omega
  rw [hres bix hind, ← maxbix_eq, hm, Nat.one_mul]

/-- The first one is lost. -/
theorem Finds.lost (h : Finds height f find) (h0 : height ≠ 0) (hlast : f (maxbix height) ≠ none)
    (hind : i0Blocks ≤ bix) (hlt : bix < maxbix height) : find bix = 0 := by
  have h16 : 0 < i0Blocks := by decide
  rw [h.of_double h0 hlast hind, Nat.mod_eq_of_lt hlt, h.spans.none_of_gt (by omega)]
  rfl

theorem Finds.last (h : Finds height f find) (h0 : height ≠ 0) (hlast : f (maxbix height) ≠ none) :
    find (maxbix height) = (f (maxbix height)).getD 0 := by
  rw [h.of_double h0 hlast (i0Blocks_le_maxbix h0), Nat.mod_self, Nat.add_zero,
    indirect_of_le (i0Blocks_le_maxbix h0)]

/-- At an index that was written is the block that was written there, or nothing. -/
theorem Finds.eq_or (h : Finds height f find) (hbix : f bix ≠ none) :
    find bix = 0 ∨ find bix = (f bix).getD 0 := by
  rcases Nat.lt_or_ge bix i0Blocks with hdir | hind
  · exact Or.inr (h.direct bix hdir)
  have hb : indirect f bix ≠ none := indirect_ne_none.2 ⟨hind, hbix⟩
  have h0 : height ≠ 0 := h.spans.height_ne_zero hb
  rcases Nat.eq_or_lt_of_le (h.spans.reach bix hb) with rfl | hlt
  · exact Or.inr (h.last h0 hbix)
  · by_cases hlast : f (maxbix height) = none
    · exact Or.inr (h.of_single h0 hlast hind hlt)
    · exact Or.inl (h.lost h0 hlast hind hlt)

/-- The top block is the one with the greatest index, and that reaches into a second one only when
it is the first index behind the first one. -/
theorem Finds.eq (h : Finds height f find) (hk : Pointing c ino objs file f) (hr : ¬ Ragged file)
    (hbix : file bix ≠ none ∨ bix < maxbix height) : find bix = (f bix).getD 0 := by
  rcases Nat.lt_or_ge bix i0Blocks with hdir | hind
  · exact h.direct bix hdir
  have h0 : height ≠ 0 := by
    rcases hbix with hb | hb
    · exact h.spans.height_ne_zero (indirect_ne_none.2 ⟨hind, (hk.ne_none bix).2 hb⟩)
    · intro h0
      rw [h0] at hb
      exact absurd (lt_of_le_of_lt hind hb) (by decide)
  have hle : bix ≤ maxbix height := by
    rcases hbix with hb | hb
    · exact h.spans.reach bix (indirect_ne_none.2 ⟨hind, (hk.ne_none bix).2 hb⟩)
    · exact hb.le
  by_cases hlast : f (maxbix height) = none
  · refine h.of_single h0 hlast hind (lt_of_le_of_ne hle ?_)
    rintro rfl
    exact hbix.elim (fun hb => (hk.ne_none _).2 hb hlast) fun hb => absurd hb (lt_irrefl _)
  · rcases Nat.eq_or_lt_of_le hle with rfl | hlt
    · exact h.last h0 hlast
    · -- there are two blocks at the top, and nothing is in the first one
      have hnone : f bix = none := by
        by_contra hne
        refine hr ⟨height, h0, (hk.ne_none _).1 hlast, fun y hy => ?_, bix, hind, hlt,
          (hk.ne_none bix).1 hne⟩
        by_cases hy16 : y < i0Blocks
        · omega
        · exact h.spans.reach y (indirect_ne_none.2 ⟨not_lt.1 hy16, (hk.ne_none y).2 hy⟩)
      rw [h.lost h0 hlast hind hlt, hnone]
      rfl

/-- Of two blocks at the top the first one is lost. -/
theorem Finds.ragged (h : Finds height f find) (hk : Pointing c ino objs file f)
    (hr : Ragged file) : ∃ bix, file bix ≠ none ∧ find bix = 0 := by
  obtain ⟨k, hk0, hlast, hle, x, hx16, hxlt, hx⟩ := hr
  have hlast := (hk.ne_none _).2 hlast
  have hindk : indirect f (maxbix k) ≠ none :=
    indirect_ne_none.2 ⟨i0Blocks_le_maxbix hk0, hlast⟩
  have h0 : height ≠ 0 := h.spans.height_ne_zero hindk
  have hheight : height = k := by
    have hreach := h.spans.reach _ hindk
    obtain ⟨y, hy, hgt⟩ := h.spans.least h0
    have hyle := hle y ((hk.ne_none y).1 (indirect_ne_none.1 hy).2)
    have hlt := lt_of_lt_of_le hgt hyle
    rw [maxbix_eq, maxbix_eq] at hreach hlt
    have h1 := (Nat.pow_le_pow_iff_right (by decide)).1 hreach
    have h2 := (Nat.pow_lt_pow_iff_right (by decide)).1 hlt
    omega
  subst hheight
  exact ⟨x, hx, h.lost h0 hlast hx16 hxlt⟩

/-- A file reads back just when it is not ragged. -/
theorem Flushed.readsBack_iff (h : Flushed c ino i objs f) (hk : Pointing c ino objs file f)
    (hdev : OnDevice c objs dev) : ReadsBack c file i.di dev ↔ ¬ Ragged file := by
  constructor
  · intro hread hr
    obtain ⟨bix, hbix, hzero⟩ := (h.finds hdev).ragged hk hr
    obtain ⟨ca, hca⟩ := Option.ne_none_iff_exists'.1 hbix
    exact (hread.found bix ca hca).1 hzero
  · intro hr
    refine ⟨fun bix ca hca => ?_, fun bix hnone hlt => ?_⟩
    · rw [(h.finds hdev).eq hk hr (Or.inl (by rw [hca]; exact Option.some_ne_none ca))]
      obtain ⟨o, ho, rfl, hf⟩ := hk.written bix ca hca
      rw [hf]
      exact hdev o ho
    · rw [(h.finds hdev).eq hk hr (Or.inr hlt), hk.unwritten bix hnone]
      rfl

end Read

/-! ## Runs -/

/-- What the files are after a call: the last write of a block counts. -/
def FileOp.apply (files : Nat → Nat → Option Call) : FileOp → Nat → Nat → Option Call
  | .write ino bix level type buf => Function.update files ino
      (Function.update (files ino) bix (some ⟨type, ino, bix, level, buf⟩))
  | .flush _ => files

/-- The files after these calls. -/
def filesOf (ops : List FileOp) : Nat → Nat → Option Call :=
  ops.foldl FileOp.apply fun _ _ => none

/-- The files that have been flushed. -/
def FileOp.mark (done : List Nat) : FileOp → List Nat
  | .write .. => done
  | .flush ino => ino :: done

/-- Level zero is written, as far as three levels of indirect blocks reach, and a file that has
been flushed is left alone. -/
def FileOp.Allowed (done : List Nat) : FileOp → Prop
  | .write ino bix level _ _ => ino ∉ done ∧ level = 0 ∧ bix < maxbix 3
  | .flush ino => ino ∉ done

def OpsAllowed : List Nat → List FileOp → Prop
  | _, [] => True
  | done, op :: ops => op.Allowed done ∧ OpsAllowed (op.mark done) ops

/-- The inodes have the pointers to the blocks of the files. -/
structure FilesHeld (c : Cfg) (files : Nat → Nat → Option Call) (done : List Nat) (s : Sb) :
    Prop where
  pending : ∀ ino, ino ∉ done → ∃ f, Pointing c ino (objects s.trace) (files ino) f ∧
    Unflushed (inodeAt s ino) f
  plain : ∀ ino, ino ∉ done → ∀ o ∈ objects s.trace, o.ino = ino → o.level = 0
  stored : ∀ ino ∈ done, ∃ f, Pointing c ino (objects s.trace) (files ino) f ∧
    Flushed c ino (inodeAt s ino) (objects s.trace) f

section Runs

variable {c : Cfg} {s s' : Sb} {ino : Nat} {ca : Call} {done : List Nat} {objs new : List Obj}
  {file : Nat → Option Call} {files : Nat → Nat → Option Call} {f : Nat → Option Nat}

/-- Objects of other files, and indirect blocks, do not matter. -/
theorem Pointing.mono (h : Pointing c ino objs file f)
    (hnew : ∀ o ∈ new, o.ino = ino → o.level ≠ 0) : Pointing c ino (new ++ objs) file f where
  newest := by
    rw [h.newest]
    funext b
    have hnone : new.find? (fun o => o.ino = ino ∧ o.level = 0 ∧ o.bix = b) = none := by
      rw [List.find?_eq_none]
      intro o ho hdec
      have hdec := of_decide_eq_true hdec
      exact hnew o ho hdec.1 hdec.2.1
    unfold lastOfs
    rw [List.find?_append, hnone, Option.none_or]
  written b ca hca := by
    obtain ⟨o, ho, h⟩ := h.written b ca hca
    exact ⟨o, List.mem_append_right _ ho, h⟩
  unwritten := h.unwritten

theorem Pointing.write {o : Obj} (h : Pointing c o.ino objs file f) (h0 : o.level = 0) :
    Pointing c o.ino (o :: objs) (Function.update file o.bix (some o.call))
      (Function.update f o.bix (some (o.ofs c))) where
  newest := by
    rw [h.newest]
    funext b
    unfold lastOfs
    rw [Function.update_apply, List.find?_cons]
    by_cases hb : b = o.bix
    · simp [hb, h0]
    · simp [hb, Ne.symm hb]
  written b ca hca := by
    rw [Function.update_apply] at hca ⊢
    split_ifs at hca ⊢
    · exact ⟨o, List.mem_cons_self, Option.some_inj.1 hca, rfl⟩
    · obtain ⟨o', ho', h⟩ := h.written b ca hca
      exact ⟨o', List.mem_cons_of_mem _ ho', h⟩
  unwritten b hb := by
    rw [Function.update_apply] at hb ⊢
    split_ifs at hb ⊢
    exact h.unwritten b hb

theorem Blank.filesHeld (h : Blank c s) : FilesHeld c (fun _ _ => none) [] s where
  pending ino _ := by
    have hz : inodeAt s ino = .zero := by
      rw [inodeAt, h.inoTree]
      rfl
    rw [hz, h.quiet.objects]
    exact ⟨_, ⟨rfl, fun b ca h => (Option.some_ne_none ca h.symm).elim, fun b _ => rfl⟩, .fresh⟩
  plain ino _ o ho := by
    rw [h.quiet.objects] at ho
    cases ho
  stored ino h := by cases h

/-- The files whose inodes do not change are held as before. -/
theorem FilesHeld.keep (h : FilesHeld c files done s) (hran : Ran c new s s')
    (hnew : ∀ o ∈ new, o.ino ≠ ino) (hat : inodeAt s' ino = inodeAt s ino) :
    (ino ∉ done → (∃ f, Pointing c ino (objects s'.trace) (files ino) f ∧
      Unflushed (inodeAt s' ino) f) ∧ ∀ o ∈ objects s'.trace, o.ino = ino → o.level = 0) ∧
    (ino ∈ done → ∃ f, Pointing c ino (objects s'.trace) (files ino) f ∧
      Flushed c ino (inodeAt s' ino) (objects s'.trace) f) := by
  have hk' : ∀ {f}, Pointing c ino (objects s.trace) (files ino) f →
      Pointing c ino (new ++ objects s.trace) (files ino) f := fun hk =>
    hk.mono fun o ho hino => absurd hino (hnew o ho)
  rw [hat, hran.objects]
  constructor
  · intro hino
    obtain ⟨f, hk, hf⟩ := h.pending ino hino
    refine ⟨⟨f, hk' hk, hf⟩, fun o ho heq => ?_⟩
    rcases List.mem_append.1 ho with ho | ho
    · exact absurd heq (hnew o ho)
    · exact h.plain ino hino o ho heq
  · intro hino
    obtain ⟨f, hk, hf⟩ := h.stored ino hino
    exact ⟨f, hk' hk, hf.mono hnew⟩

theorem FilesHeld.filed (h : FilesHeld c files done s) (hf : Filed c ca s s')
    (hop : ca.ino ∉ done ∧ ca.level = 0 ∧ ca.bix < maxbix 3) :
    FilesHeld c (Function.update files ca.ino (Function.update (files ca.ino) ca.bix (some ca)))
      done s' := by
  obtain ⟨hino, hlevel, hbix⟩ := hop
  obtain ⟨o, rfl, hran, hat⟩ := hf.obj
  have hobjs : objects s'.trace = o :: objects s.trace := hran.objects
  have hother : ∀ ino, ino ≠ o.call.ino → inodeAt s' ino = inodeAt s ino := fun ino hne => by
    rw [hat, Function.update_of_ne hne]
  have hnew : ∀ ino, ino ≠ o.call.ino → ∀ o' ∈ [o], o'.ino ≠ ino := fun ino hne o' ho' => by
    rw [List.mem_singleton.1 ho']
    exact Ne.symm hne
  constructor
  · intro ino hdone
    by_cases heq : ino = o.call.ino
    · subst heq
      obtain ⟨f, hk, hun⟩ := h.pending _ hdone
      refine ⟨Function.update f o.call.bix (some (o.ofs c)), ?_, ?_⟩
      · rw [Function.update_self, hobjs]
        exact Pointing.write hk hlevel
      · rw [hat, Function.update_self, hlevel]
        exact hun.write hbix (ofs_lt c o)
    · rw [Function.update_of_ne heq]
      exact ((h.keep hran (hnew ino heq) (hother ino heq)).1 hdone).1
  · intro ino hdone
    by_cases heq : ino = o.call.ino
    · subst heq
      intro o' ho' hino'
      rw [hobjs] at ho'
      rcases List.mem_cons.1 ho' with rfl | ho'
      · exact hlevel
      · exact h.plain _ hdone o' ho' hino'
    · exact ((h.keep hran (hnew ino heq) (hother ino heq)).1 hdone).2
  · intro ino hdone
    have hne : ino ≠ o.call.ino := by
      rintro rfl
      exact hino hdone
    rw [Function.update_of_ne hne]
    exact (h.keep hran (hnew ino hne) (hother ino hne)).2 hdone

theorem FilesHeld.flushed (h : FilesHeld c files done s) (hino : ino ∉ done)
    (hf : FileRan c ino (FileFlushed c ino) s s') : FilesHeld c files (ino :: done) s' := by
  obtain ⟨i, new, hran, hat, hr⟩ := hf.change
  have hother : ∀ x, x ≠ ino → inodeAt s' x = inodeAt s x := fun x hne => by
    rw [hat, Function.update_of_ne hne]
  have hadds : ∀ o ∈ new, o.Indirect ino := by
    obtain ⟨new', hnew', hall⟩ := (hr []).adds
    dsimp only at hnew'
    rw [List.append_nil, List.append_nil] at hnew'
    rwa [hnew']
  have hnew : ∀ x, x ≠ ino → ∀ o ∈ new, o.ino ≠ x := fun x hne o ho => by
    rw [(hadds o ho).ino_eq]
    exact Ne.symm hne
  constructor
  · intro x hx
    rw [List.mem_cons, not_or] at hx
    exact ((h.keep hran (hnew x hx.1) (hother x hx.1)).1 hx.2).1
  · intro x hx
    rw [List.mem_cons, not_or] at hx
    exact ((h.keep hran (hnew x hx.1) (hother x hx.1)).1 hx.2).2
  · intro x hx
    by_cases heq : x = ino
    · subst heq
      obtain ⟨f, hk, hun⟩ := h.pending x hino
      rw [hat, Function.update_self, hran.objects]
      exact ⟨f, hk.mono fun o ho _ => (hadds o ho).level_pos, hun.flush (h.plain x hino) (hr _)⟩
    · exact (h.keep hran (hnew x heq) (hother x heq)).2 (List.mem_of_ne_of_mem heq hx)

theorem FileOp.run_held (op : FileOp) (hready : Ready s) (h : FilesHeld c files done s)
    (hop : op.Allowed done) :
    Wp (op.run c) (fun r s' => (r = 0 ∧ Calm c s s' ∧ Ready s' ∧
        FilesHeld c (op.apply files) (op.mark done) s') ∨ r = - EIO)
      (fun _ _ => True) s := by
  cases op with
  | write ino bix level type buf =>
    refine (logfsFileWrite_spec hready).mono ?_ fun _ _ _ => trivial
    rintro r s1 (⟨hr, h1⟩ | ⟨hr, -⟩)
    · obtain ⟨o, -, hran, -⟩ := h1.obj
      exact Or.inl ⟨hr, hran.calm, hran.ready hready, h.filed h1 hop⟩
    · exact Or.inr hr
  | flush ino =>
    refine (logfsFileFlush_spec hready).mono ?_ fun _ _ _ => trivial
    rintro r s1 (⟨hr, h1⟩ | ⟨hr, -⟩)
    · exact Or.inl ⟨hr, h1.calm, h1.ready hready, h.flushed hop h1⟩
    · exact Or.inr hr

theorem runFileOps_held (ops : List FileOp) : ∀ s files done, Ready s →
    FilesHeld c files done s → OpsAllowed done ops →
    Wp (runFileOps c ops) (fun r s' => (r = 0 ∧ Calm c s s' ∧ Ready s' ∧
        FilesHeld c (ops.foldl FileOp.apply files) (ops.foldl FileOp.mark done) s') ∨ r = - EIO)
      (fun _ _ => True) s := by
  induction ops with
  | nil => exact fun s files done hready h _ => Or.inl ⟨rfl, .refl, hready, h⟩
  | cons op ops ih =>
    rintro s files done hready h ⟨hop, hops⟩
    unfold runFileOps
    refine (op.run_held hready h hop).seq ?_ fun _ _ h => h
    rintro err s1 (⟨rfl, h1, hready1, hheld1⟩ | rfl)
    · rw [if_neg (by decide)]
      refine (ih s1 _ _ hready1 hheld1 hops).mono ?_ fun _ _ h => h
      rintro r s2 (⟨hr, h2, h3⟩ | hr)
      · exact Or.inl ⟨hr, h1.trans h2, h3⟩
      · exact Or.inr hr
    · rw [if_pos (by decide)]
      exact Or.inr rfl

theorem mem_foldl_mark (ops : List FileOp) : ∀ done : List Nat, .flush ino ∈ ops →
    ino ∈ ops.foldl FileOp.mark done := by
  have hkeep : ∀ (ops : List FileOp) (done : List Nat), ino ∈ done →
      ino ∈ ops.foldl FileOp.mark done := by
    intro ops
    induction ops with
    | nil => exact fun _ h => h
    | cons op ops ih =>
      intro done h
      refine ih _ ?_
      cases op with
      | write => exact h
      | flush => exact List.mem_cons_of_mem _ h
  induction ops with
  | nil => exact fun _ h => by cases h
  | cons op ops ih =>
    intro done h
    rcases List.mem_cons.1 h with rfl | h
    · exact hkeep ops _ List.mem_cons_self
    · exact ih _ h

/-- The objects are on the device when the areas have been written, as far as their segments begin
below four gigabytes. -/
theorem Placements.onDevice (h : Placements c s)
    (hlow : ∀ o ∈ objects s.trace, o.segno * c.segsize < 2 ^ 32) (init : Buf) :
    OnDevice c (objects s.trace) (s.content init) := by
  intro o ho
  obtain ⟨objs, hp⟩ := h.inPlace ho
  obtain ⟨hu, hfits, hsize⟩ := hp.used_lt
  rw [ofs_of_lt (by omega) (hlow o ho)]
  have : 0 < segmentHeadersize := by decide
  exact ⟨by omega, hp.at init⟩

/-- After any calls of `logfs_file_write` and `logfs_file_flush` and the flush of the areas, a file
that was flushed reads back from the device just when it is not ragged. -/
theorem files_read_back_iff (c : Cfg) (ops : List FileOp) (s0 s1 s2 : Sb) (hblank : Blank c s0)
    (herased : ∀ x, s0.content eraseBuf x = 0xff) (hops : OpsAllowed [] ops)
    (h1 : runFileOps c ops s0 = .ok 0 s1) (h2 : flushSegments c s1 = .ok 0 s2)
    (hlow : ∀ o ∈ objects s1.trace, o.segno * c.segsize < 2 ^ 32) :
    ∀ ino, .flush ino ∈ ops → ∀ init,
      ReadsBack c (filesOf ops ino) (inodeAt s2 ino).di (s2.content init) ↔
        ¬ Ragged (filesOf ops ino) := by
  intro ino hino init
  obtain ⟨-, hcalm, hready, hheld⟩ :=
    ((runFileOps_held ops s0 _ _ hblank.ready hblank.filesHeld hops).of_ok h1).resolve_right
      (by decide)
  obtain ⟨-, hflush⟩ := ((flushSegments_spec hready).of_ok h2).resolve_right
    fun h => absurd h.1 (by decide)
  have hclosed : ∀ l, isOpen l s2.trace = false := fun l => by
    rcases Nat.lt_or_ge l noAreas with hl | hl
    · exact hflush.closed l (Nat.zero_le _) (by omega)
    · rw [(hcalm.trans hflush.calm).isOpen_ge hl, hblank.quiet.isOpen]
  have hsteps := (hcalm.trans hflush.calm).steps fun ⟨l, hl, _⟩ => by
    rw [hclosed] at hl
    cases hl
  have hplace : Placements c s2 :=
    ⟨(hblank.image herased).steps hblank.counted hblank.fillings hsteps,
      hblank.laid.steps hblank.counted hblank.fillings hsteps,
      (hcalm.trans hflush.calm).fillings hblank.fillings, hclosed⟩
  have hdev := hplace.onDevice (by rw [hflush.objects]; exact hlow)
  rw [hflush.objects] at hdev
  obtain ⟨f, hk, hf⟩ := hheld.stored ino (mem_foldl_mark ops [] hino)
  have hat : inodeAt s2 ino = inodeAt s1 ino := by
    unfold inodeAt
    rw [hflush.inoTree]
  rw [hat]
  exact hf.readsBack_iff hk (hdev init)

/-- A direct block, one behind two indirect blocks, and the first again. -/
def threeWrites : List FileOp :=
  [.write 20 3 0 .block fun _ => 1, .write 20 600 0 .block fun _ => 2,
    .write 20 3 0 .block fun _ => 3, .flush 20]

theorem threeWrites_allowed : OpsAllowed [] threeWrites := by
  simp [threeWrites, OpsAllowed, FileOp.Allowed, FileOp.mark, maxbix, blockBits]

/-- Neither of the two indices is a multiple of 512. -/
theorem threeWrites_not_ragged : ¬ Ragged (filesOf threeWrites 20) := by
  rintro ⟨height, h0, hlast, -⟩
  have hdvd : 512 ∣ maxbix height := by
    rw [maxbix_eq]
    exact dvd_pow_self 512 h0
  have hcases : maxbix height = 3 ∨ maxbix height = 600 := by
    by_contra hno
    rw [not_or] at hno
    refine hlast ?_
    simp [filesOf, threeWrites, FileOp.apply, hno.1, hno.2]
  omega

theorem files_read_back_sixteen :
    let s1 := after (runFileOps sixteenGiB threeWrites) (badStart 0)
    let s2 := after (flushSegments sixteenGiB) s1
    ∀ init, ReadsBack sixteenGiB (filesOf threeWrites 20) (inodeAt s2 20).di (s2.content init) := by
  intro s1 s2 init
  have h1 := ok_of_returnsZero (m := runFileOps sixteenGiB threeWrites) (s := badStart 0)
    (by decide +kernel)
  have h2 := ok_of_returnsZero (m := flushSegments sixteenGiB) (s := s1) (by decide +kernel)
  have hlow : (objects s1.trace).all (fun o => o.segno * sixteenGiB.segsize < 2 ^ 32) = true := by
    decide +kernel
  exact (files_read_back_iff sixteenGiB threeWrites (badStart 0) s1 s2 (blank_zero _ _)
    (fun _ => rfl) threeWrites_allowed h1 h2
    (fun o ho => of_decide_eq_true (List.all_eq_true.1 hlow o ho)) 20 (by simp [threeWrites])
    init).2 threeWrites_not_ragged

end Runs

end Logfs.Mkfs
