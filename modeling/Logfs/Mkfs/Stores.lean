import Logfs.Mkfs.Reserve

/-!
# What is stored, however a run ends

mkfs stores blocks of files, which hold zeros or pointers below four gigabytes,
and inodes.  That is so at any point of a run, whether it goes on, fails or is
stopped there.
-/

namespace Logfs.Mkfs

/-- What mkfs stores: blocks of the lower levels in which the high half of each word is zero, and
inodes. -/
def Call.Known (ca : Call) : Prop :=
  ca.ino ≠ inoMaster ∧ ca.level < 4 ∧ ca.type = .block ∧ (∀ p, p % 8 < 4 → ca.data p = 0) ∨
    ca.ino = inoMaster ∧ ca.level = 0 ∧ ca.type = .inode

/-- Such objects were stored, at most `n` of them inodes. -/
def Stores (n : Nat) (s s' : Sb) : Prop :=
  ∃ new, objects s'.trace = new ++ objects s.trace ∧ (∀ o ∈ new, o.call.Known) ∧
    new.countP (·.ino = inoMaster) ≤ n

/-- The pointers in the indirect blocks of an inode are below four gigabytes. -/
def BlocksFit (i : Inode) : Prop :=
  ∀ level bix b, (i.blockTree level).get bix = some b → level < 4 ∧ ∀ j, b j < 2 ^ 32

def PointersFit (s : Sb) : Prop := ∀ ino, BlocksFit (inodeAt s ino)

section Relation

variable {s s1 s' : Sb} {n m : Nat}

theorem Stores.refl (s : Sb) : Stores n s s := ⟨[], rfl, by simp, by simp⟩

theorem Stores.trans (h : Stores n s s1) (h1 : Stores m s1 s') : Stores (n + m) s s' := by
  obtain ⟨new, h, hk, hn⟩ := h
  obtain ⟨new1, h1, hk1, hm⟩ := h1
  refine ⟨new1 ++ new, by rw [h1, h, List.append_assoc], fun o ho => ?_, ?_⟩
  · exact (List.mem_append.1 ho).elim (hk1 o) (hk o)
  · rw [List.countP_append]
    omega

theorem Stores.mono (h : Stores n s s') (hle : n ≤ m) : Stores m s s' := by
  obtain ⟨new, h, hk, hn⟩ := h
  exact ⟨new, h, hk, hn.trans hle⟩

instance : IsPreorder Sb (Stores 0) where
  refl := Stores.refl
  trans _ _ _ := Stores.trans

theorem stores_of_same (hs : PointersFit s) (hino : s'.inoTree = s.inoTree)
    (hobj : objects s'.trace = objects s.trace) : PointersFit s' ∧ Stores n s s' := by
  refine ⟨fun ino => ?_, [], hobj, by simp, by simp⟩
  unfold inodeAt
  rw [hino]
  exact hs ino

end Relation

/-! ## Segments and areas -/

section Areas

variable {c : Cfg} {s : Sb} {l : Nat}

theorem getSegment_keeps (c : Cfg) : Keeps PointersFit (Stores 0) (getSegment c) := by
  intro s hs
  refine (getSegment_spec c s).mono ?_ ?_
  · rintro segno s2 ⟨s1, hbad, ht⟩
    have hsame := (SameStore.of_badTurns hbad).trans ht.sameStore
    exact stores_of_same hs hsame.inoTree hsame.objects
  · rintro e s2 ⟨s1, hbad, h1⟩
    have hsame := SameStore.of_badTurns hbad
    rcases h1 with rfl | h1
    · exact stores_of_same hs hsame.inoTree hsame.objects
    · refine stores_of_same hs ?_ ?_
      · rw [h1.same]
        exact hsame.inoTree
      · rcases h1.trace with h | h
        · rw [h, hsame.objects]
        · rw [h]
          exact hsame.objects

theorem initArea'_keeps (c : Cfg) (l : Nat) : Keeps PointersFit (Stores 0) (initArea' c l) := by
  refine (getSegment_keeps c).bind fun segno => ?_
  intro s hs
  rw [wp_bind, wp_setArea, wp_note]
  exact stores_of_same hs rfl rfl

theorem initArea_keeps (c : Cfg) (l : Nat) : Keeps PointersFit (Stores 0) (initArea c l) := by
  refine Keeps.get_bind fun s hs => ?_
  exact (Keeps.ite (fun _ => Keeps.pure ()) fun _ => initArea'_keeps c l) s hs

/-- `dev_ops->write` stores nothing, and returns zero or an error. -/
theorem devWrite_keeps (t : Target) (ofs size : Nat) (buf : Buf) (hs : PointersFit s) :
    Wp (devWrite t ofs size buf)
      (fun err s' => (err = 0 ∨ err = - EIO) ∧ PointersFit s' ∧ Stores 0 s s')
      (fun _ s' => PointersFit s' ∧ Stores 0 s s') s := by
  refine (devWrite_spec t ofs size buf s).mono ?_ ?_
  · rintro err s1 (⟨rfl, hd⟩ | ⟨rfl, n, -, hd⟩)
    · rw [hd.same]
      exact ⟨Or.inl rfl, stores_of_same hs rfl rfl⟩
    · rw [hd.same]
      exact ⟨Or.inr rfl, stores_of_same hs rfl rfl⟩
  · rintro e s1 ⟨n, -, hd⟩
    rw [hd.same]
    exact stores_of_same hs rfl rfl

theorem finishArea_keeps (c : Cfg) (l : Nat) (final : Bool) (hs : PointersFit s) :
    Wp (finishArea c l final)
      (fun err s' => (err = 0 ∨ err = - EIO) ∧ PointersFit s' ∧ Stores 0 s s')
      (fun _ s' => PointersFit s' ∧ Stores 0 s s') s := by
  unfold finishArea
  rw [wp_bind, wp_get]
  dsimp only
  cases (s.area l).buf with
  | none => exact ⟨hs, .refl s⟩
  | some buf =>
    refine (devWrite_keeps _ _ _ _ hs).bind ?_
    rintro err s1 ⟨herr, hs1, h1⟩
    rw [wp_ite]
    refine ⟨fun _ => ⟨herr, hs1, h1⟩, fun _ => ?_⟩
    rw [wp_bind]
    refine wp_setEntry (fun _ => ?_) ⟨hs1, h1⟩
    rw [wp_bind, wp_note, wp_ite]
    set s2 : Sb := { s1 with
      segmentEntry := Function.update s1.segmentEntry (s.area l).segno (areaEntry l (s.area l))
      trace := .closed l (s.area l).segno (s.segmentEntry (s.area l).segno)
        (areaEntry l (s.area l)) :: s1.trace }
    obtain ⟨hs2, h2⟩ : PointersFit s2 ∧ Stores 0 s1 s2 := stores_of_same hs1 rfl rfl
    have h2 : Stores 0 s _ := h1.trans h2
    refine ⟨fun _ => ⟨Or.inl rfl, hs2, h2⟩, fun _ => ?_⟩
    exact ((initArea'_keeps c l _ hs2).after h2).bind fun _ _ h3 => ⟨Or.inl rfl, h3⟩

end Areas

/-! ## Objects -/

section Objects

variable {c : Cfg} {s : Sb}

/-- One more object. -/
theorem stores_append {o : Obj} {n : Nat} (ho : o.call.Known) (hn : o.ino = inoMaster → 1 ≤ n)
    {s' : Sb} (hobj : objects s'.trace = o :: objects s.trace) : Stores n s s' := by
  refine ⟨[o], hobj, fun o' ho' => ?_, ?_⟩
  · rw [List.mem_singleton.1 ho']
    exact ho
  · rw [List.countP_singleton]
    split_ifs with h
    · exact hn (of_decide_eq_true h)
    · exact Nat.zero_le _

/-- `logfs_segment_write` returns an offset below four gigabytes or an error. -/
theorem logfsSegmentWrite_keeps {ca : Call} {n : Nat} (hca : ca.Known)
    (hn : ca.ino = inoMaster → 1 ≤ n) (hs : PointersFit s) :
    Wp (logfsSegmentWrite c ca.data ca.type ca.ino ca.bix ca.level)
      (fun r s' => r.toNat < 2 ^ 32 ∧ PointersFit s' ∧ Stores n s s')
      (fun _ s' => PointersFit s' ∧ Stores n s s') s := by
  have hle : ∀ {s' : Sb}, PointersFit s' ∧ Stores 0 s s' → PointersFit s' ∧ Stores n s s' :=
    fun h => ⟨h.1, h.2.mono (Nat.zero_le n)⟩
  unfold logfsSegmentWrite
  dsimp only
  rw [wp_ite]
  refine ⟨fun _ => ⟨hs, .refl s⟩, fun _ => ?_⟩
  refine (initArea_keeps c _ s hs).seq ?_ fun _ _ h => hle h
  rintro - s1 ⟨hs1, h1⟩
  -- both branches of the test for room go on alike
  have hnext : ∀ (err : Int) (s2 : Sb),
      (err = 0 ∨ err = - EIO) ∧ PointersFit s2 ∧ Stores 0 s s2 →
      Wp (if err ≠ 0 then pure err
        else do
          let s ← get
          let a := s.area (areaOf ca.ino ca.level)
          let o : Obj := ⟨areaOf ca.ino ca.level, a.segno, a.usedBytes, ca.type, ca.ino, ca.bix,
            ca.level, ca.data⟩
          setArea (areaOf ca.ino ca.level) (copyObj c o a)
          noteEvent (.append o)
          growInode ca.ino (objectHeadersize + objLen ca.type)
          pure (o.ofs c : Int))
        (fun r s' => r.toNat < 2 ^ 32 ∧ PointersFit s' ∧ Stores n s s')
        (fun _ s' => PointersFit s' ∧ Stores n s s') s2 := by
    rintro err s2 ⟨herr, hs2, h2⟩
    rw [wp_ite]
    refine ⟨fun hne => ?_, fun _ => ?_⟩
    · rw [herr.resolve_left hne]
      exact ⟨by decide, hle ⟨hs2, h2⟩⟩
    · rw [wp_bind, wp_get, wp_bind, wp_setArea, wp_bind, wp_note, wp_bind]
      refine wp_growInode ?_
      rw [wp_pure]
      refine ⟨?_, fun x => ?_, (h2.trans (stores_append (n := n) (o := ⟨_, _, _, ca.type, ca.ino,
        ca.bix, ca.level, ca.data⟩) hca hn rfl)).mono (by omega)⟩
      · rw [Int.toNat_natCast]
        exact Nat.mod_lt _ (by decide)
      · rw [inodeAt_insert (s := s2) ca.ino rfl, Function.update_apply]
        split_ifs
        · exact hs2 ca.ino
        · exact hs2 x
  rw [wp_bind, wp_get, wp_ite]
  constructor
  · intro _
    refine (finishArea_keeps c _ false hs1).seq (fun err s2 h2 => hnext err s2 ?_) ?_
    · exact ⟨h2.1, h2.2.1, h1.trans h2.2.2⟩
    · exact fun _ _ h => hle ⟨h.1, h1.trans h.2⟩
  · intro _
    rw [wp_bind, wp_pure]
    exact hnext 0 s1 ⟨Or.inl rfl, hs1, h1⟩

end Objects

/-! ## Inodes -/

section Inodes

variable {c : Cfg} {i : Inode} {level bix slot ofs ino n k : Nat}

/-- One function after another. -/
theorem keeps_bind {α β : Type} {m : MkfsM α} {f : α → MkfsM β}
    (hm : Keeps PointersFit (Stores n) m) (hf : ∀ a, Keeps PointersFit (Stores k) (f a)) :
    Keeps PointersFit (Stores (n + k)) (m >>= f) := by
  intro s hs
  refine (hm s hs).seq (fun a s1 h1 => ?_) fun _ _ h1 => ⟨h1.1, h1.2.mono (Nat.le_add_right n k)⟩
  exact (hf a s1 h1.1).mono (fun _ _ h2 => ⟨h2.1, h1.2.trans h2.2⟩)
    fun _ _ h2 => ⟨h2.1, h1.2.trans h2.2⟩

theorem keeps_pure {α : Type} (a : α) : Keeps PointersFit (Stores n) (pure a : MkfsM α) :=
  fun s hs => ⟨hs, .refl s⟩

theorem keeps_throw {α : Type} (e : Stop) :
    Keeps PointersFit (Stores n) (throw e : MkfsM α) :=
  fun s hs => ⟨hs, .refl s⟩

theorem BlocksFit.setTree {tree : OrdMap Nat Block} (h : BlocksFit i)
    (ht : ∀ bix b, tree.get bix = some b → level < 4 ∧ ∀ j, b j < 2 ^ 32) :
    BlocksFit (setTree i level tree) := by
  intro l bix b hb
  unfold Mkfs.setTree at hb
  dsimp only at hb
  rw [Function.update_apply] at hb
  split_ifs at hb with heq
  · subst heq
    exact ht bix b hb
  · exact h l bix b hb

theorem BlocksFit.growInodeHeight (h : BlocksFit i) : BlocksFit (growInodeHeight i bix level) := by
  unfold Mkfs.growInodeHeight
  split_ifs
  · exact h
  · exact h

theorem BlocksFit.insert {b : Block} (h : BlocksFit i) (hl : level < 4) (hb : ∀ j, b j < 2 ^ 32) :
    BlocksFit (Mkfs.setTree i level ((i.blockTree level).insert bix b)) := by
  refine h.setTree fun x b' hb' => ⟨hl, ?_⟩
  rw [OrdMap.get_insert] at hb'
  split_ifs at hb'
  · rw [← Option.some_inj.1 hb']
    exact hb
  · exact (h level x b' hb').2

theorem BlocksFit.findOrCreateBlock (h : BlocksFit i) (hl : level < 4) :
    BlocksFit (findOrCreateBlock i bix level) := by
  unfold Mkfs.findOrCreateBlock
  cases (i.blockTree level).get bix with
  | some _ => exact h
  | none => exact h.insert hl fun _ => by decide

theorem BlocksFit.setSlot (h : BlocksFit i) (hofs : ofs < 2 ^ 32) :
    BlocksFit (setSlot i bix level slot ofs) := by
  unfold Mkfs.setSlot
  cases hb : (i.blockTree level).get bix with
  | none => exact h
  | some block =>
    obtain ⟨hl, hfit⟩ := h level bix block hb
    refine h.insert hl fun j => ?_
    rw [Function.update_apply]
    split_ifs
    · exact hofs
    · exact hfit j

/-- The last block is taken out. -/
theorem BlocksFit.erase (h : BlocksFit i) :
    BlocksFit (Mkfs.setTree i level ((i.blockTree level).erase bix)) := by
  refine h.setTree fun x b hb => ?_
  rw [OrdMap.get_erase] at hb
  split_ifs at hb
  exact h level x b hb

theorem modifyInode_keeps {f : Inode → Inode} (hf : ∀ i, BlocksFit i → BlocksFit (f i)) :
    Keeps PointersFit (Stores n) (modifyInode ino f) := by
  intro s hs
  unfold modifyInode
  rw [wp_modify]
  cases hi : s.inoTree.get ino with
  | none => exact ⟨hs, .refl s⟩
  | some i =>
    refine ⟨fun x => ?_, .refl s⟩
    have hat : inodeAt s ino = i := by
      rw [inodeAt, hi]
      rfl
    rw [inodeAt_insert (s := s) ino rfl, Function.update_apply]
    split_ifs
    · exact hf i (hat ▸ hs ino)
    · exact hs x

theorem findOrCreateInode_keeps (c : Cfg) (ino : Nat) :
    Keeps PointersFit (Stores n) (findOrCreateInode ino) := by
  intro s hs
  refine (findOrCreateInode_spec c ino s).imp ?_
  rintro i s1 ⟨-, h1, hat, -⟩
  exact ⟨fun x => hat ▸ hs x, [], h1.objects, by simp, by simp⟩

end Inodes

/-! ## Files -/

section Files

variable {c : Cfg} {s : Sb} {ca : Call} {n ino level : Nat}

theorem writeDirect_keeps (hca : ca.Known) (hn : ca.ino = inoMaster → 1 ≤ n)
    (hlevel : ca.level = 0) :
    Keeps PointersFit (Stores n) (writeDirect c ca.ino ca.bix ca.type ca.data) := by
  intro s hs
  unfold writeDirect
  rw [← hlevel]
  refine (logfsSegmentWrite_keeps hca hn hs).bind ?_
  rintro ofs s1 ⟨-, hs1, h1⟩
  rw [wp_ite]
  refine ⟨fun _ => ⟨hs1, h1⟩, fun _ => ?_⟩
  refine (keeps_bind (modifyInode_keeps (n := 0) fun i h => ?_) (fun _ => keeps_pure (n := 0) 0) s1
    hs1).mono (fun _ _ h2 => ⟨h2.1, h1.trans h2.2⟩) fun _ _ h2 => ⟨h2.1, h1.trans h2.2⟩
  exact h

theorem writeLoop_keeps (hca : ca.Known) (hn : ca.ino = inoMaster → 1 ≤ n) :
    Keeps PointersFit (Stores n) (writeLoop c ca.ino ca.bix ca.level ca.type ca.data) := by
  intro s hs
  unfold writeLoop
  rw [wp_ite]
  refine ⟨fun _ => ⟨hs, .refl s⟩, fun hlevel => ?_⟩
  have hlevel := not_not.1 hlevel
  refine (modifyInode_keeps (n := 0) (fun i h => h.findOrCreateBlock hlevel) s hs).seq ?_
    fun _ _ h => ⟨h.1, h.2.mono (Nat.zero_le n)⟩
  rintro - s1 ⟨hs1, h1⟩
  refine (logfsSegmentWrite_keeps hca hn hs1).seq ?_
    fun _ _ h => ⟨h.1, (h1.trans h.2).mono (by omega)⟩
  rintro ofs s2 ⟨hofs, hs2, h2⟩
  have h2 : Stores n s s2 := (h1.trans h2).mono (by omega)
  rw [wp_ite]
  refine ⟨fun _ => ⟨hs2, h2⟩, fun _ => ?_⟩
  refine (keeps_bind (modifyInode_keeps (n := 0) fun i h => ?_) (fun _ => keeps_pure (n := 0) 0) s2
    hs2).mono (fun _ _ h3 => ⟨h3.1, h2.trans h3.2⟩) fun _ _ h3 => ⟨h3.1, h2.trans h3.2⟩
  exact h.setSlot hofs

theorem logfsFileWrite_keeps (hca : ca.Known) (hn : ca.ino = inoMaster → 1 ≤ n) :
    Keeps PointersFit (Stores n) (logfsFileWrite c ca.ino ca.bix ca.level ca.type ca.data) := by
  unfold logfsFileWrite
  rw [← Nat.zero_add n]
  refine keeps_bind (findOrCreateInode_keeps c _) fun _ => Keeps.ite (fun h => ?_) fun _ => ?_
  · exact writeDirect_keeps hca hn h.1
  · rw [← Nat.zero_add n]
    refine keeps_bind (modifyInode_keeps fun i h => h.growInodeHeight) fun _ => ?_
    exact writeLoop_keeps hca hn

/-- A block taken out of a tree is as the tree said. -/
theorem takeLast_keeps (c : Cfg) (ino level : Nat) (hs : PointersFit s) :
    Wp (takeLast ino level)
      (fun r s' => (∀ bix b, r = some (bix, b) → level < 4 ∧ ∀ j, b j < 2 ^ 32) ∧
        PointersFit s' ∧ Stores 0 s s')
      (fun _ s' => PointersFit s' ∧ Stores 0 s s') s := by
  refine (takeLast_spec c ino level s).imp ?_
  rintro r s1 ⟨h1, hr, hat⟩
  have hstores : Stores 0 s s1 := ⟨[], h1.objects, by simp, by simp⟩
  cases r with
  | none => exact ⟨fun _ _ h => (Option.some_ne_none _ h.symm).elim, fun x => hat ▸ hs x, hstores⟩
  | some e =>
    obtain ⟨bix, block⟩ := e
    have hget := (OrdMap.last_eq_some hr.symm).1
    refine ⟨fun bix' b h => ?_, fun x => ?_, hstores⟩
    · cases h
      exact hs ino level bix block hget
    · rw [hat, Function.update_apply]
      split_ifs
      · exact (hs ino).erase
      · exact hs x

/-- The pointers of an indirect block leave the high halves of the words zero. -/
theorem bytes_high {b : Block} (hb : ∀ j, b j < 2 ^ 32) {p : Nat} (hp : p % 8 < 4) :
    b.bytes p = 0 := by
  unfold Block.bytes
  refine be_getD_zero 0 (by omega) (lt_of_lt_of_le (hb _) ?_)
  calc 2 ^ 32 = 256 ^ 4 := by decide
    _ ≤ 256 ^ (8 - 1 - p % 8) := Nat.pow_le_pow_right (by decide) (by omega)

theorem flushLevel_keeps (hino : ino ≠ inoMaster) : ∀ n,
    Keeps PointersFit (Stores 0) (flushLevel c ino level n) := by
  intro n
  induction n with
  | zero => exact keeps_pure 0
  | succ n ih =>
    intro s hs
    unfold flushLevel
    refine (takeLast_keeps c ino level hs).bind ?_
    rintro r s1 ⟨hr, hs1, h1⟩
    cases r with
    | none => exact ⟨hs1, h1⟩
    | some e =>
      obtain ⟨bix, block⟩ := e
      obtain ⟨hlevel, hb⟩ := hr bix block rfl
      have hca : (⟨.block, ino, bix, level, block.bytes⟩ : Call).Known :=
        Or.inl ⟨hino, hlevel, rfl, fun p hp => bytes_high hb hp⟩
      refine Wp.after h1 (Keeps.bind (logfsFileWrite_keeps hca fun h => absurd h hino) ?_ s1 hs1)
      exact fun err => Keeps.ite (fun _ => keeps_pure err) fun _ => ih

theorem flushLevels_keeps (hino : ino ≠ inoMaster) : ∀ n level,
    Keeps PointersFit (Stores 0) (flushLevels c ino n level) := by
  intro n
  induction n with
  | zero => exact fun _ => keeps_pure 0
  | succ n ih =>
    intro level
    unfold flushLevels
    refine Keeps.bind (findOrCreateInode_keeps c ino) fun i => ?_
    refine Keeps.bind (flushLevel_keeps hino _) fun err => ?_
    exact Keeps.ite (fun _ => keeps_pure err) fun _ => ih (level + 1)

theorem logfsFileFlush_keeps (hino : ino ≠ inoMaster) :
    Keeps PointersFit (Stores 0) (logfsFileFlush c ino) := by
  unfold logfsFileFlush
  refine Keeps.bind (findOrCreateInode_keeps c ino) fun i => ?_
  refine Keeps.ite (fun _ => keeps_pure 0) fun _ => ?_
  refine Keeps.bind (flushLevels_keeps hino _ _) fun err => ?_
  refine Keeps.ite (fun _ => keeps_pure err) fun _ => ?_
  intro s hs
  refine (takeLast_keeps c ino _ hs).bind ?_
  rintro r s1 ⟨hr, hs1, h1⟩
  cases r with
  | none => exact ⟨hs1, h1⟩
  | some e =>
    obtain ⟨bix, block⟩ := e
    obtain ⟨hlevel, hb⟩ := hr bix block rfl
    have hca : (⟨.block, ino, bix, i.di.height, block.bytes⟩ : Call).Known :=
      Or.inl ⟨hino, hlevel, rfl, fun p hp => bytes_high hb hp⟩
    refine (logfsSegmentWrite_keeps (n := 0) hca (fun h => absurd h hino) hs1).seq ?_
      fun _ _ h => ⟨h.1, h1.trans h.2⟩
    rintro ofs s2 ⟨-, hs2, h2⟩
    have h2 : Stores 0 s s2 := h1.trans h2
    rw [wp_ite]
    refine ⟨fun _ => ⟨hs2, h2⟩, fun _ => ?_⟩
    refine Wp.after h2 (Keeps.bind (modifyInode_keeps fun i h => ?_) (fun _ => keeps_pure 0) s2 hs2)
    exact h

end Files

/-! ## The stages of a run -/

section Stages

variable {c : Cfg} {ino : Nat}

theorem writeInode_keeps (c : Cfg) (ino : Nat) :
    Keeps PointersFit (Stores 1) (writeInode c ino) := by
  unfold writeInode
  refine keeps_bind (n := 0) (k := 1) (findOrCreateInode_keeps c ino) fun i => ?_
  have hca : (inodeCall ino i).Known := Or.inr ⟨rfl, rfl, rfl⟩
  have h := logfsFileWrite_keeps (c := c) hca fun _ => Nat.le_refl 1
  dsimp only [inodeCall] at h
  exact h

theorem writeSegmentBlocks_keeps (c : Cfg) : ∀ n ofs,
    Keeps PointersFit (Stores 0) (writeSegmentBlocks c n ofs) := by
  intro n
  induction n with
  | zero => exact fun _ => keeps_pure 0
  | succ n ih =>
    intro ofs
    unfold writeSegmentBlocks
    refine Keeps.ite (fun _ => ?_) fun _ => keeps_pure 0
    have hino : inoSegfile ≠ inoMaster := by decide
    have hca : (segfileCall ofs).Known := Or.inl ⟨hino, Nat.succ_pos 3, rfl, fun _ _ => rfl⟩
    refine Keeps.bind (logfsFileWrite_keeps hca fun h => absurd h hino) fun err => ?_
    exact Keeps.ite (fun _ => keeps_pure err) fun _ => ih (ofs + 1)

theorem writeSegmentFile_keeps (c : Cfg) :
    Keeps PointersFit (Stores 1) (writeSegmentFile c) := by
  unfold writeSegmentFile
  refine keeps_bind (n := 0) (k := 1) (findOrCreateInode_keeps c _) fun _ => ?_
  refine keeps_bind (n := 0) (k := 1) (modifyInode_keeps fun _ h => h) fun _ => ?_
  refine keeps_bind (n := 0) (k := 1) (writeSegmentBlocks_keeps c _ _) fun err => ?_
  refine Keeps.ite (fun _ => keeps_pure err) fun _ => ?_
  refine keeps_bind (n := 0) (k := 1) (logfsFileFlush_keeps (by decide)) fun err => ?_
  exact Keeps.ite (fun _ => keeps_pure err) fun _ => writeInode_keeps c _

theorem writeRootdir_keeps (c : Cfg) : Keeps PointersFit (Stores 1) (writeRootdir c) := by
  unfold writeRootdir
  refine keeps_bind (n := 0) (k := 1) (findOrCreateInode_keeps c _) fun _ => ?_
  refine keeps_bind (n := 0) (k := 1) (modifyInode_keeps fun _ h => h) fun _ => ?_
  exact writeInode_keeps c _

theorem flushAreas_keeps (c : Cfg) : ∀ n i, Keeps PointersFit (Stores 0) (flushAreas c n i) := by
  intro n
  induction n with
  | zero => exact fun _ => keeps_pure 0
  | succ n ih =>
    intro i
    unfold flushAreas
    refine Keeps.get_bind fun s hs => ?_
    have hnext : ∀ err : Int, Keeps PointersFit (Stores 0)
        (if err ≠ 0 then pure err else flushAreas c n (i + 1)) := fun err =>
      Keeps.ite (fun _ => keeps_pure err) fun _ => ih (i + 1)
    have hfinish : Keeps PointersFit (Stores 0) (finishArea c i true) := fun s hs =>
      (finishArea_keeps c i true hs).imp fun _ _ h => h.2
    exact Keeps.ite (fun _ => hfinish.bind hnext) (fun _ => (keeps_pure 0).bind hnext) s hs

theorem prepareJournalLoop_keeps (c : Cfg) : ∀ n i,
    Keeps PointersFit (Stores 0) (prepareJournalLoop c n i) := by
  intro n
  induction n with
  | zero => exact fun _ => keeps_pure ()
  | succ n ih =>
    intro i
    unfold prepareJournalLoop
    refine (getSegment_keeps c).bind fun segno => Keeps.ite (fun _ => keeps_throw .wild) fun _ => ?_
    refine Keeps.bind (Keeps.modify fun s hs => stores_of_same hs rfl rfl) fun _ => ?_
    refine Keeps.bind (fun s hs => ?_) fun _ => ih (i + 1)
    exact wp_setEntry (fun _ => stores_of_same hs rfl rfl) ⟨hs, .refl s⟩

theorem orFail_keeps {msg : String} {m : MkfsM Int} {n : Nat}
    (h : Keeps PointersFit (Stores n) m) : Keeps PointersFit (Stores n) (orFail msg m) :=
  keeps_bind (k := 0) h fun _ => Keeps.ite (fun _ => keeps_throw _) fun _ => keeps_pure ()

/-- Up to `make_journal` two inodes are stored, and blocks. -/
theorem mkfsStore_keeps (c : Cfg) : Keeps PointersFit (Stores 2) (mkfsStore c) := by
  unfold mkfsStore
  refine keeps_bind (n := 0) (k := 2) (prepareJournalLoop_keeps c _ _) fun _ => ?_
  refine keeps_bind (n := 1) (k := 1) (orFail_keeps (writeSegmentFile_keeps c)) fun _ => ?_
  refine keeps_bind (n := 1) (k := 0) (orFail_keeps (writeRootdir_keeps c)) fun _ => ?_
  exact orFail_keeps (flushAreas_keeps c _ _)

end Stages

end Logfs.Mkfs
