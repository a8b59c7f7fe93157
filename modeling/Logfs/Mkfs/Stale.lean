import Logfs.Mkfs.Stores

/-!
# Old superblocks

Both places for superblocks are to be without a valid one from `prepare_sb` until
`make_super`, so that a run that stops in between does not leave one over a file
system that is gone.  What the run writes there in the meantime is no superblock:
some byte where the magic number would be is always wrong.
-/

namespace Logfs.Mkfs

open Relation (ReflTransGen)

/-! ## Superblocks -/

/-- A superblock with the magic number and the right checksum. -/
def SuperAt (c : Cfg) (buf : Buf) (ofs : Nat) : Prop :=
  peek buf (ofs + 24) 8 = be 8 logfsMagic ∧
    peek buf (ofs + 32) 4 = logfsCrc32 c.crc32 (peek buf (ofs + 36) 220)

instance (c : Cfg) (buf : Buf) (ofs : Nat) : Decidable (SuperAt c buf ofs) :=
  inferInstanceAs (Decidable (_ ∧ _))

/-- There is none in the two places. -/
def NoSuperblocks (c : Cfg) (init : Buf) (s : Sb) : Prop :=
  ¬ SuperAt c (s.content init) s.sbOfs1 ∧ ¬ SuperAt c (s.content init) s.sbOfs2

section Super

variable {c : Cfg} {buf buf' : Buf} {ofs : Nat}

/-- What `make_super` writes is one. -/
theorem superAt_bytes (ds : DiskSuper) (h : At buf ofs (ds.bytes c.crc32)) : SuperAt c buf ofs := by
  unfold DiskSuper.bytes at h
  obtain ⟨h, hbody⟩ := at_append.1 h
  obtain ⟨h, hcrc⟩ := at_append.1 h
  obtain ⟨-, hmagic⟩ := at_append.1 h
  have hlen := ds.body_length
  simp only [List.length_append, segmentHeader_length, be_length, logfsCrc32_length,
    segmentHeadersize, Nat.reduceAdd] at hmagic hcrc hbody
  unfold SuperAt
  rw [hmagic.peek_eq (be_length ..), hcrc.peek_eq (logfsCrc32_length ..), hbody.peek_eq hlen]
  exact ⟨rfl, rfl⟩

theorem SuperAt.congr (h : SuperAt c buf ofs)
    (heq : ∀ x, ofs + 24 ≤ x → x < ofs + 256 → buf' x = buf x) : SuperAt c buf' ofs := by
  unfold SuperAt
  rw [peek_congr fun i hi => heq (ofs + 24 + i) (by omega) (by omega),
    peek_congr fun i hi => heq (ofs + 32 + i) (by omega) (by omega),
    peek_congr fun i hi => heq (ofs + 36 + i) (by omega) (by omega)]
  exact h

/-- The bytes of the magic number that are looked at. -/
theorem SuperAt.bytes (h : SuperAt c buf ofs) : buf (ofs + 24) = 0x7a ∧ buf (ofs + 28) = 0xb9 := by
  have hm := (peek_eq_iff (be_length 8 logfsMagic)).1 h.1
  exact ⟨hm 0 (by decide), hm 4 (by decide)⟩

end Super

/-! ## What areas hold there -/

/-- Zero, or as after an erase. -/
def Plain (b : UInt8) : Prop := b = 0 ∨ b = 0xff

/-- Where a superblock is that ends with its segment, up to the first byte of its magic number. -/
def Cfg.tail (c : Cfg) : Nat := c.segsize - 0x1000 + 24

/-- In every area that a run writes, this byte of a segment is zero or erased: it is the first byte
of the magic number or the fifth, whichever is in the high half of a word when blocks fill the
segment. -/
def Cfg.mark (c : Cfg) : Nat :=
  c.tail + if (c.segsize - 0x1000) / (objectHeadersize + blocksize) % 2 = 1 then 0 else 4

/-- All objects are known, and at most two are inodes. -/
structure Tame (s : Sb) : Prop where
  known : ∀ o ∈ objects s.trace, o.call.Known
  inodes : (objects s.trace).countP (·.ino = inoMaster) ≤ 2

section Buffers

variable {c : Cfg} {l segno ofs z : Nat} {objs : List Obj} {o : Obj} {s s' : Sb}

/-- The fifth byte of an object's header is the high half of its length. -/
theorem bytes_four (o : Obj) : (o.bytes c).getD 4 0 ≠ 0xb9 := by
  unfold Obj.bytes objectHeader
  dsimp only
  rw [List.getD_append _ _ _ _ (by simp), List.getD_append _ _ _ _ (by simp),
    List.getD_append_right _ _ _ _ (by simp), logfsCrc32_length, objectHeaderBody,
    List.getD_append _ _ _ _ (by simp), List.getD_append _ _ _ _ (by simp),
    List.getD_append _ _ _ _ (by simp), List.getD_append _ _ _ _ (by simp)]
  cases o.type <;> decide

/-- So no superblock begins with the segment of an area. -/
theorem segmentBytes_head (h : SegmentObjs c l segno objs) :
    segmentBytes c l segno objs 28 ≠ 0xb9 := by
  cases objs with
  | nil =>
    unfold segmentBytes
    rw [padded_default (by simp [segmentHeadersize])]
    decide
  | cons o objs =>
    have hat := at_iff.1 (h.at List.mem_cons_self) 4 (by
      rw [o.bytes_length, Obj.size, objectHeadersize]
      omega)
    rw [h.chained.1] at hat
    rw [show segmentHeadersize + 4 = 28 from rfl] at hat
    rw [hat]
    exact bytes_four o

/-- Objects of one size. -/
theorem chained_uniform (h : Chained ofs objs) (hz : ∀ o ∈ objs, o.size = z) (ho : o ∈ objs) :
    ∃ j, o.used = ofs + z * j ∧ z * (j + 1) ≤ sizes objs := by
  induction objs generalizing ofs with
  | nil => cases ho
  | cons o' objs ih =>
    have hz' := hz o' List.mem_cons_self
    rcases List.mem_cons.1 ho with rfl | ho
    · exact ⟨0, h.1, by rw [sizes_cons, hz']; omega⟩
    · obtain ⟨j, hj, hle⟩ := ih h.2 (fun o ho => hz o (List.mem_cons_of_mem _ ho)) ho
      refine ⟨j + 1, ?_, ?_⟩
      · rw [hj, hz', Nat.mul_add, Nat.mul_one]
        omega
      · rw [sizes_cons, hz', Nat.mul_add z (j + 1), Nat.mul_one]
        omega

theorem bytes_data {i : Nat} (hi : i < objLen o.type) :
    (o.bytes c).getD (objectHeadersize + i) 0 = o.data i := by
  unfold Obj.bytes
  dsimp only
  rw [List.getD_append_right _ _ _ _ (by simp), objectHeader_length, Nat.add_sub_cancel_left,
    List.getD_eq_getElem _ _ (by simpa using hi), peek_getElem, Nat.zero_add]

theorem sizes_uniform (hz : ∀ o ∈ objs, o.size = z) : sizes objs = z * objs.length := by
  induction objs with
  | nil => rfl
  | cons o objs ih =>
    rw [sizes_cons, hz o List.mem_cons_self, ih fun o ho => hz o (List.mem_cons_of_mem _ ho),
      List.length_cons, Nat.mul_add, Nat.mul_one, Nat.add_comm]

/-- Where the mark is when `q` blocks end before the last block of the segment. -/
theorem mark_eq (c : Cfg) : ∃ q e, c.mark = c.segsize - 0x1000 + 24 + e ∧
    4124 * q ≤ c.segsize - 0x1000 ∧ c.segsize - 0x1000 < 4124 * q + 4124 ∧
    (q % 2 = 1 ∧ e = 0 ∨ q % 2 = 0 ∧ e = 4) := by
  unfold Cfg.mark Cfg.tail
  rw [show objectHeadersize + blocksize = 4124 from rfl]
  by_cases h : (c.segsize - 0x1000) / 4124 % 2 = 1
  · exact ⟨(c.segsize - 0x1000) / 4124, 0, by rw [if_pos h], by omega, by omega, Or.inl ⟨h, rfl⟩⟩
  · exact ⟨(c.segsize - 0x1000) / 4124, 4, by rw [if_neg h], by omega, by omega,
      Or.inr ⟨by omega, rfl⟩⟩

/-- The blocks of an area of files: the mark is in the high half of a word. -/
theorem blocks_mark (h : SegmentObjs c l segno objs)
    (hb : ∀ o ∈ objs, o.type = .block ∧ ∀ p, p % 8 < 4 → o.data p = 0) :
    Plain (segmentBytes c l segno objs c.mark) := by
  have hsize : ∀ o ∈ objs, o.size = 4124 := fun o ho => by
    rw [Obj.size, (hb o ho).1]
    rfl
  have hfits := h.fits
  have htwo := c.two_blocks_le
  have hmod := c.segsize_mod
  obtain ⟨q, e, hmark, hq⟩ := mark_eq c
  by_cases hlt : c.mark < segmentHeadersize + sizes objs
  · have hge : segmentHeadersize ≤ c.mark := by
      rw [hmark, segmentHeadersize]
      omega
    obtain ⟨o, ho, hle, hlt⟩ := chained_cover h.chained hge hlt
    obtain ⟨j, hj, hroom⟩ := chained_uniform h.chained hsize ho
    obtain ⟨htype, hdata⟩ := hb o ho
    rw [hsize o ho] at hlt
    have hpos : objectHeadersize ≤ c.mark - o.used ∧
        (c.mark - o.used - objectHeadersize) % 8 < 4 := by
      simp only [segmentHeadersize] at hfits hj
      rw [objectHeadersize]
      -- the object is the one behind the `q` blocks
      have hjq : j = q := by omega
      subst hjq
      omega
    have hat := at_iff.1 (h.at ho) (c.mark - o.used) (by rw [o.bytes_length, hsize o ho]; omega)
    rw [Nat.add_sub_cancel' hle] at hat
    refine Or.inl ?_
    rw [hat, ← Nat.add_sub_cancel' hpos.1, bytes_data, hdata _ hpos.2]
    rw [htype]
    simp only [objLen, objectHeadersize, blocksize, blockshift] at hpos ⊢
    omega
  · refine Or.inr ?_
    unfold segmentBytes
    rw [padded_default]
    rw [List.length_append, areaHeader_length, flatMap_bytes_length]
    omega

/-- The inodes are at the beginning of their segment. -/
theorem inodes_mark (hb : ∀ o ∈ objs, o.type = .inode) (hn : objs.length ≤ 2) :
    Plain (segmentBytes c l segno objs c.mark) := by
  have hsizes : sizes objs = 228 * objs.length := sizes_uniform fun o ho => by
    rw [Obj.size, hb o ho]
    rfl
  have htwo := c.two_blocks_le
  refine Or.inr ?_
  unfold segmentBytes
  rw [padded_default]
  rw [List.length_append, areaHeader_length, flatMap_bytes_length, hsizes, segmentHeadersize]
  unfold Cfg.mark Cfg.tail
  omega

theorem segmentBytes_mark (h : SegmentObjs c l segno objs) (hk : ∀ o ∈ objs, o.call.Known)
    (hn : objs.countP (·.ino = inoMaster) ≤ 2) : Plain (segmentBytes c l segno objs c.mark) := by
  by_cases hl : l < 4
  · refine blocks_mark h fun o ho => ?_
    rcases hk o ho with ⟨-, -, htype, hdata⟩ | ⟨hino, hlevel, -⟩
    · exact ⟨htype, hdata⟩
    · -- inodes go to another area
      have hino : o.ino = inoMaster := hino
      have hlevel : o.level = 0 := hlevel
      have harea := (h.place o ho).2.2
      rw [hino, hlevel] at harea
      have : l = 6 := harea.symm
      omega
  · have hinode : ∀ o ∈ objs, o.ino = inoMaster ∧ o.type = .inode := fun o ho => by
      rcases hk o ho with ⟨hino, hlevel, -⟩ | ⟨hino, -, htype⟩
      · have hino : o.ino ≠ inoMaster := hino
        have hlevel : o.level < 4 := hlevel
        have harea := (h.place o ho).2.2
        rw [areaOf, if_neg hino] at harea
        omega
      · exact ⟨hino, htype⟩
    refine inodes_mark (fun o ho => (hinode o ho).2) ?_
    rwa [List.countP_eq_length.2 fun o ho => decide_eq_true (hinode o ho).1] at hn

/-- The objects of an open area are among those of the history. -/
theorem Fillings.filling_sublist (hf : Fillings c s) (hl : isOpen l s.trace = true) :
    (filling l s.trace).Sublist (objects s.trace).reverse := by
  have hall := hf.all l
  rw [if_pos hl] at hall
  have hsub : (filling l s.trace).Sublist (objectsOf l s.trace) := by
    rw [hall]
    exact List.sublist_append_right _ _
  exact hsub.trans List.filter_sublist

/-- An area that is about to be written holds no superblock in the two places. -/
theorem Writes.tame {buf : Buf} (hw : Writes l buf s) (hf : Fillings c s) (ht : Tame s) :
    Plain (buf c.mark) ∧ buf 28 ≠ 0xb9 := by
  have hold := hf.area l hw.opened
  have hbuf := Option.some_inj.1 (hw.buf_eq.symm.trans hold.buf)
  have hsub := hf.filling_sublist hw.opened
  rw [hbuf]
  refine ⟨segmentBytes_mark hold.objs (fun o ho => ht.known o ?_) ?_, segmentBytes_head hold.objs⟩
  · exact List.mem_reverse.1 (hsub.subset ho)
  · exact (hsub.countP_le).trans (List.countP_reverse.trans_le ht.inodes)

theorem objects_append (new tr : List Event) :
    objects (new ++ tr) = objects new ++ objects tr := by
  induction new with
  | nil => rfl
  | cons e new ih =>
    cases e with
    | append o => exact congrArg (o :: ·) ih
    | erase | scan | got | opened | issue | done | closed | prepared => exact ih

/-- What is so in the end was so before. -/
theorem Tame.before (ht : Tame s') (h : Continues s s') : Tame s := by
  obtain ⟨new, htr, -⟩ := h.trace
  have hobj : objects s'.trace = objects new ++ objects s.trace := by rw [htr, objects_append]
  constructor
  · intro o ho
    exact ht.known o (hobj ▸ List.mem_append_right _ ho)
  · have := ht.inodes
    rw [hobj, List.countP_append] at this
    omega

end Buffers

/-! ## What reaches the device -/

/-- The device stays as it is, or a part of a segment is erased, or an area is written. -/
inductive Touched (c : Cfg) (s s' : Sb) : Prop where
  | same (h : s'.blits = s.blits)
  | erased {i n : Nat} (hn : n ≤ c.segsize) (h : ∀ init x, s'.content init x =
      if i * c.segsize ≤ x ∧ x < i * c.segsize + n then 0xff else s.content init x)
  | wrote {l n : Nat} {buf : Buf} (hw : Writes l buf s) (hn : n ≤ c.segsize)
    (h : ∀ init x, s'.content init x =
      if (s.area l).segno * c.segsize ≤ x ∧ x < (s.area l).segno * c.segsize + n then
        buf (x - (s.area l).segno * c.segsize) else s.content init x)

/-- An area that is open was so before in the same segment, or its segment has been erased. -/
def Reopened (c : Cfg) (s s' : Sb) : Prop :=
  ∀ l, isOpen l s'.trace = true →
    isOpen l s.trace = true ∧ (s'.area l).segno = (s.area l).segno ∨
      ∀ init r, r < c.segsize → s'.content init ((s'.area l).segno * c.segsize + r) = 0xff

structure Moved (c : Cfg) (s s' : Sb) : Prop where
  touched : Touched c s s'
  reopened : Reopened c s s'

section Moves

variable {c : Cfg} {s s1 s' : Sb} {segno l : Nat}

/-- A byte of a segment, and the beginning of a segment. -/
theorem segment_iff {i k r n : Nat} (hr : r < c.segsize) (hn : n ≤ c.segsize) :
    i * c.segsize ≤ k * c.segsize + r ∧ k * c.segsize + r < i * c.segsize + n ↔ k = i ∧ r < n := by
  constructor
  · rintro ⟨h1, h2⟩
    have hki : k = i := by
      by_contra hne
      exact not_inSegment hne hr ⟨h1, by omega⟩
    subst hki
    exact ⟨rfl, by omega⟩
  · rintro ⟨rfl, h⟩
    omega

theorem reopened_of_same (hopen : ∀ l, isOpen l s'.trace = true → isOpen l s.trace = true)
    (harea : ∀ l, (s'.area l).segno = (s.area l).segno) : Reopened c s s' :=
  fun l hl => Or.inl ⟨hopen l hl, harea l⟩

theorem BadTurn.moved (h : BadTurn c s s') : Moved c s s' := by
  obtain ⟨n, hn, hcontent⟩ := h.content
  refine ⟨.erased hn hcontent, reopened_of_same (fun l hl => ?_) fun l => ?_⟩
  · rwa [← h.sameStore.isOpen]
  · rw [h.sameStore.area]

theorem Taken.moved (h : Taken c segno s s') : Moved c s s' := by
  refine ⟨.erased (Nat.le_refl _) h.content, reopened_of_same (fun l hl => ?_) fun l => ?_⟩
  · rwa [← h.sameStore.isOpen]
  · rw [h.sameStore.area]

theorem CutTurn.moved (h : CutTurn c s s') : Moved c s s' := by
  obtain ⟨n, hn, hcontent⟩ := h.content
  refine ⟨.erased hn hcontent, reopened_of_same (fun l hl => ?_) fun l => ?_⟩
  · rcases h.trace with htr | htr
    · rwa [htr] at hl
    · rw [htr] at hl
      exact hl
  · rw [h.same]

/-- An area opens in a segment that has been erased. -/
theorem Taken.opened_moved (h : Taken c segno s s1) : Moved c s { s1 with
    area := Function.update s1.area l (openedArea c l segno)
    trace := .opened l segno :: s1.trace } := by
  refine ⟨.erased (Nat.le_refl _) h.content, fun l' hl' => ?_⟩
  dsimp only at hl' ⊢
  rw [isOpen, h.sameStore.isOpen] at hl'
  rw [Function.update_apply]
  by_cases heq : l = l'
  · right
    intro init r hr
    rw [if_pos heq.symm]
    exact (h.content init _).trans (if_pos ((segment_iff hr (Nat.le_refl _)).2 ⟨rfl, hr⟩))
  · rw [if_neg heq] at hl'
    rw [if_neg (Ne.symm heq), h.sameStore.area]
    exact Or.inl ⟨hl', rfl⟩

/-- An area is written, all of it or a part. -/
theorem Did.moved {evs : List Event} {n : Nat} {buf : Buf} (hw : Writes l buf s)
    (hn : n ≤ c.segsize) (h : Did evs ((s.area l).segno * c.segsize) n buf s s1)
    (hevs : ∀ e ∈ evs, e.isWrite) : Moved c s s1 := by
  refine ⟨.wrote hw hn h.content, reopened_of_same (fun l' hl' => ?_) fun l' => ?_⟩
  · rw [h.same] at hl'
    have hskip : isOpen l' (evs ++ s.trace) = isOpen l' s.trace := by
      clear h hl' hw
      induction evs with
      | nil => rfl
      | cons e evs ih =>
        have he := hevs e List.mem_cons_self
        have ih := ih fun e he => hevs e (List.mem_cons_of_mem _ he)
        cases e with
        | issue | done => exact ih
        | erase | scan | got | opened | append | closed | prepared => exact he.elim
    exact hskip ▸ hl'
  · rw [h.same]

theorem Step.moved (h : Step c s s') : Moved c s s' := by
  cases h with
  | create => exact ⟨.same rfl, reopened_of_same (fun _ h => h) fun _ => rfl⟩
  | modify => exact ⟨.same rfl, reopened_of_same (fun _ h => h) fun _ => rfl⟩
  | bad h => exact h.moved
  | reserve _ h =>
    obtain ⟨htouched, hopen⟩ := h.moved
    refine ⟨?_, hopen⟩
    exact .erased (Nat.le_refl _) h.content
  | fresh _ _ h => exact h.opened_moved
  | append =>
    refine ⟨.same rfl, reopened_of_same (fun _ h => h) fun l => ?_⟩
    unfold appendTo
    dsimp only
    rw [Function.update_apply]
    split_ifs with hl
    · rw [hl]
      rfl
    · rfl
  | @close l buf s1 hw _ h =>
    obtain ⟨-, hopen⟩ := h.moved hw (Nat.le_refl _) (by simp [Event.isWrite])
    refine ⟨.wrote hw (Nat.le_refl _) h.content, fun l' hl' => hopen l' ?_⟩
    have hl' : (if l = l' then false else isOpen l' s1.trace) = true := hl'
    split_ifs at hl'
    exact hl'

theorem Overrun.moved (h : Overrun c s s') : Moved c s s' := by
  cases h with
  | mk _ _ h => exact h.opened_moved

theorem FailedWrite.moved (h : FailedWrite c s s') : Moved c s s' := by
  cases h with
  | mk hw hn h => exact h.moved hw hn (by simp [Event.isWrite])

theorem Halt.moved (h : Halt c s s') : Moved c s s' := by
  cases h with
  | here => exact ⟨.same rfl, reopened_of_same (fun _ h => h) fun _ => rfl⟩
  | turn h => exact h.moved
  | taken _ h => exact ⟨.erased (Nat.le_refl _) h.content, h.moved.reopened⟩
  | cut hw hn h => exact h.moved hw hn (by simp [Event.isWrite])
  | wrote hw h => exact h.moved hw (Nat.le_refl _) (by simp [Event.isWrite])

end Moves

/-! ## The two places -/

/-- No superblock is at the beginning of segment `k`. -/
def HeadGone (c : Cfg) (init : Buf) (k : Nat) (s : Sb) : Prop :=
  s.content init (k * c.segsize + 28) ≠ 0xb9

/-- From the magic number on the last block of segment `k` is as in the beginning, without a
superblock, or the first byte of that number is erased. -/
def TailUnused (c : Cfg) (init : Buf) (k : Nat) (s : Sb) : Prop :=
  Plain (s.content init (k * c.segsize + c.tail)) ∨
    ¬ SuperAt c init (k * c.segsize + (c.segsize - 0x1000)) ∧
      ∀ r, c.tail ≤ r → r < c.segsize → s.content init (k * c.segsize + r) = init (k * c.segsize + r)

/-- No superblock ends with segment `k`: the marked byte is wrong, as it stays from the first
complete erase of the segment on, or the segment has not been used. -/
def TailGone (c : Cfg) (init : Buf) (k : Nat) (s : Sb) : Prop :=
  Plain (s.content init (k * c.segsize + c.mark)) ∨
    TailUnused c init k s ∧ ∀ l, isOpen l s.trace = true → (s.area l).segno ≠ k

section Gone

variable {c : Cfg} {init : Buf} {k k1 k2 : Nat} {s s1 s2 s' : Sb} {os : List Outcome}

theorem tail_lt (c : Cfg) : c.tail ≤ c.mark ∧ c.mark < c.segsize ∧
    c.tail + 232 ≤ c.segsize := by
  obtain ⟨q, e, hmark, -, -, he⟩ := mark_eq c
  have := c.two_blocks_le
  rw [hmark, Cfg.tail]
  omega

theorem HeadGone.not_super (h : HeadGone c init k s) :
    ¬ SuperAt c (s.content init) (k * c.segsize) := fun hs => h hs.bytes.2

theorem not_plain_magic {b : UInt8} (h : Plain b) : b ≠ 0x7a ∧ b ≠ 0xb9 := by
  rcases h with rfl | rfl <;> decide

theorem TailUnused.not_super (h : TailUnused c init k s) :
    ¬ SuperAt c (s.content init) (k * c.segsize + (c.segsize - 0x1000)) := by
  have htail : k * c.segsize + (c.segsize - 0x1000) + 24 = k * c.segsize + c.tail :=
    Nat.add_assoc ..
  intro hs
  rcases h with h | ⟨hno, heq⟩
  · exact (not_plain_magic h).1 (htail ▸ hs.bytes.1)
  · refine hno (hs.congr fun x hx hlt => ?_)
    have hle := tail_lt c
    rw [htail] at hx
    rw [Cfg.tail] at hle
    have := heq (x - k * c.segsize) (by omega) (by omega)
    rw [Nat.add_sub_cancel' (by omega)] at this
    exact this.symm

theorem TailGone.not_super (h : TailGone c init k s) :
    ¬ SuperAt c (s.content init) (k * c.segsize + (c.segsize - 0x1000)) := by
  rcases h with h | ⟨h, -⟩
  · intro hs
    obtain ⟨q, e, hmark, -, -, he⟩ := mark_eq c
    obtain ⟨hne1, hne2⟩ := not_plain_magic h
    obtain ⟨h1, h2⟩ := hs.bytes
    rcases he with ⟨-, rfl⟩ | ⟨-, rfl⟩
    · rw [hmark, Nat.add_zero, ← Nat.add_assoc, h1] at hne1
      exact hne1 rfl
    · rw [hmark, ← Nat.add_assoc, ← Nat.add_assoc, Nat.add_assoc _ 24 4, h2] at hne2
      exact hne2 rfl
  · exact h.not_super

/-- The bytes of a segment after a step. -/
theorem Touched.content (h : Touched c s s') (k : Nat) {r : Nat} (hr : r < c.segsize) :
    (∀ init, s'.content init (k * c.segsize + r) = s.content init (k * c.segsize + r)) ∨
      (∀ init, s'.content init (k * c.segsize + r) = 0xff) ∨
      ∃ l buf, Writes l buf s ∧ (s.area l).segno = k ∧
        ∀ init, s'.content init (k * c.segsize + r) = buf r := by
  cases h with
  | same h =>
    refine Or.inl fun init => ?_
    unfold Sb.content
    rw [h]
  | @erased i n hn h =>
    by_cases hin : k = i ∧ r < n
    · exact Or.inr (Or.inl fun init => by rw [h, if_pos ((segment_iff hr hn).2 hin)])
    · exact Or.inl fun init => by rw [h, if_neg (mt (segment_iff hr hn).1 hin)]
  | @wrote l n buf hw hn h =>
    by_cases hin : k = (s.area l).segno ∧ r < n
    · refine Or.inr (Or.inr ⟨l, buf, hw, hin.1.symm, fun init => ?_⟩)
      rw [h, if_pos ((segment_iff hr hn).2 hin), hin.1, Nat.add_sub_cancel_left]
    · exact Or.inl fun init => by rw [h, if_neg (mt (segment_iff hr hn).1 hin)]

theorem HeadGone.moved (hg : HeadGone c init k s) (hm : Moved c s s')
    (hbuf : ∀ l buf, Writes l buf s → buf 28 ≠ 0xb9) : HeadGone c init k s' := by
  have htwo := c.two_blocks_le
  unfold HeadGone
  rcases hm.touched.content k (r := 28) (by omega) with h | h | ⟨l, buf, hw, -, h⟩
  · rw [h]
    exact hg
  · rw [h]
    decide
  · rw [h]
    exact hbuf l buf hw

theorem TailUnused.moved (hu : TailUnused c init k s) (ht : Touched c s s')
    (hopen : ∀ l, isOpen l s.trace = true → (s.area l).segno ≠ k) : TailUnused c init k s' := by
  have hlt := tail_lt c
  -- what is written is no area of this segment
  have hcontent : ∀ r, r < c.segsize → s'.content init (k * c.segsize + r) =
      s.content init (k * c.segsize + r) ∨ s'.content init (k * c.segsize + r) = 0xff := by
    intro r hr
    rcases ht.content k hr with h | h | ⟨l, buf, hw, hseg, -⟩
    · exact Or.inl (h init)
    · exact Or.inr (h init)
    · exact absurd hseg (hopen l hw.opened)
  rcases hu with hu | ⟨hno, heq⟩
  · left
    rcases hcontent c.tail (by omega) with h | h
    · rwa [h]
    · exact Or.inr h
  cases ht with
  | same h =>
    refine Or.inr ⟨hno, fun r hr hrS => ?_⟩
    rw [← heq r hr hrS]
    unfold Sb.content
    rw [h]
  | @erased i n hn h =>
    by_cases hin : k = i ∧ c.tail < n
    · refine Or.inl (Or.inr ?_)
      rw [h, if_pos ((segment_iff (by omega) hn).2 hin)]
    · refine Or.inr ⟨hno, fun r hr hrS => ?_⟩
      rw [h, if_neg, heq r hr hrS]
      rw [segment_iff hrS hn]
      omega
  | @wrote l n buf hw hn h =>
    refine Or.inr ⟨hno, fun r hr hrS => ?_⟩
    rw [h, if_neg, heq r hr hrS]
    rw [segment_iff hrS hn]
    rintro ⟨rfl, -⟩
    exact hopen l hw.opened rfl

theorem TailGone.moved (hg : TailGone c init k s) (hm : Moved c s s')
    (hbuf : ∀ l buf, Writes l buf s → Plain (buf c.mark)) : TailGone c init k s' := by
  have hlt := tail_lt c
  rcases hg with hg | ⟨hu, hopen⟩
  · left
    rcases hm.touched.content k (r := c.mark) (by omega) with h | h | ⟨l, buf, hw, -, h⟩
    · rwa [h]
    · rw [h]
      exact Or.inr rfl
    · rw [h]
      exact hbuf l buf hw
  · by_cases herased : s'.content init (k * c.segsize + c.mark) = 0xff
    · exact Or.inl (Or.inr herased)
    · refine Or.inr ⟨hu.moved hm.touched hopen, fun l hl hseg => ?_⟩
      rcases hm.reopened l hl with ⟨hl, hs⟩ | h
      · exact hopen l hl (hs ▸ hseg)
      · exact herased (hseg ▸ h init c.mark (by omega))

/-- Nothing the object store does brings a superblock back. -/
theorem gone_calm (hf : Fillings c s) (hcalm : Calm c s s') (ht : Tame s')
    (h1 : HeadGone c init k1 s) (h2 : TailGone c init k s) :
    HeadGone c init k1 s' ∧ TailGone c init k s' := by
  induction hcalm with
  | refl => exact ⟨h1, h2⟩
  | @tail s1 s2 hs1 hstep ih =>
    have hcont := hstep.elim Step.continues Overrun.continues
    have hmoved := hstep.elim Step.moved Overrun.moved
    have ht1 := ht.before hcont
    obtain ⟨h1, h2⟩ := ih ht1
    have hf1 := Calm.fillings hs1 hf
    exact ⟨h1.moved hmoved fun l buf hw => (hw.tame hf1 ht1).2,
      h2.moved hmoved fun l buf hw => (hw.tame hf1 ht1).1⟩

end Gone

end Logfs.Mkfs
