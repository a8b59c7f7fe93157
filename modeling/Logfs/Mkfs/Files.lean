import Logfs.Mkfs.Acts

/-!
# Flushing a file

`logfs_file_flush` takes the blocks out of the trees of an inode, level after
level, and stores each; its offset goes to the level above.  What that does is
said of the inode and of the objects stored, apart from the areas and the device.
-/

namespace Logfs.Mkfs

open Relation (ReflTransGen)

/-! ## An inode and the objects stored for it -/

/-- An inode, and the objects stored so far, newest first. -/
abbrev FileState := Inode × List Obj

/-- One turn of the inner loop: the last block of the level is stored. -/
inductive FlushTurn (c : Cfg) (ino level : Nat) : FileState → FileState → Prop where
  | mk {i : Inode} {objs : List Obj} {bix : Nat} {block : Block} {o : Obj}
    (hlast : (i.blockTree level).last = some (bix, block))
    (ho : o.call = ⟨.block, ino, bix, level, block.bytes⟩) :
    FlushTurn c ino level (i, objs)
      ((setTree i level ((i.blockTree level).erase bix)).stored bix level (o.ofs c) o.size,
        o :: objs)

/-- All blocks of a level are stored. -/
structure LevelFlushed (c : Cfg) (ino level : Nat) (x y : FileState) : Prop where
  turns : ReflTransGen (FlushTurn c ino level) x y
  empty : (y.1.blockTree level).last = none

/-- So are those of `n` levels from `level` on. -/
def LevelsFlushed (c : Cfg) (ino : Nat) : Nat → Nat → FileState → FileState → Prop
  | 0, _, x, y => y = x
  | n + 1, level, x, y => ∃ z, LevelFlushed c ino level x z ∧ LevelsFlushed c ino n (level + 1) z y

/-- The file is flushed: nothing is left to do without indirect blocks, else the last block of
the top level goes to the inode. -/
inductive FileFlushed (c : Cfg) (ino : Nat) : FileState → FileState → Prop where
  | flat {x : FileState} (h : x.1.di.height = 0) : FileFlushed c ino x x
  | tall {x y : FileState} {height bix : Nat} {block : Block} {o : Obj}
    (h : x.1.di.height = height) (h0 : height ≠ 0)
    (hlevels : LevelsFlushed c ino (height - 1) 1 x y)
    (hlast : (y.1.blockTree height).last = some (bix, block))
    (ho : o.call = ⟨.block, ino, bix, height, block.bytes⟩) :
    FileFlushed c ino x
      (setData ((setTree y.1 height ((y.1.blockTree height).erase bix)).grow o.size) indirectIndex
        (o.ofs c), o :: y.2)

/-- A run that has changed one inode, and stored objects, as `R` says. -/
structure FileRan (c : Cfg) (ino : Nat) (R : FileState → FileState → Prop) (s s' : Sb) : Prop where
  change : ∃ i new, Ran c new s s' ∧ inodeAt s' = Function.update (inodeAt s) ino i ∧
    ∀ objs, R (inodeAt s ino, objs) (i, new ++ objs)

section Flush

variable {c : Cfg} {s s1 s' : Sb} {ino level : Nat} {R R1 R2 : FileState → FileState → Prop}

theorem FileRan.calm (h : FileRan c ino R s s') : Calm c s s' := by
  obtain ⟨i, new, h, -⟩ := h.change
  exact h.calm

theorem FileRan.ready (h : FileRan c ino R s s') (hready : Ready s) : Ready s' := by
  obtain ⟨i, new, h, -⟩ := h.change
  exact h.ready hready

theorem FileRan.mono (h : FileRan c ino R s s') (hR : ∀ x y, R x y → R1 x y) :
    FileRan c ino R1 s s' := by
  obtain ⟨i, new, h, hat, hr⟩ := h.change
  exact ⟨i, new, h, hat, fun objs => hR _ _ (hr objs)⟩

theorem FileRan.trans (h : FileRan c ino R s s1) (h1 : FileRan c ino R1 s1 s')
    (hR : ∀ x y z, R x y → R1 y z → R2 x z) : FileRan c ino R2 s s' := by
  obtain ⟨i, new, h, hat, hr⟩ := h.change
  obtain ⟨i1, new1, h1, hat1, hr1⟩ := h1.change
  refine ⟨i1, new1 ++ new, h.trans h1, by rw [hat1, hat, Function.update_idem], fun objs => ?_⟩
  refine hR _ _ _ (hr objs) ?_
  have := hr1 (new ++ objs)
  rwa [hat, Function.update_self, ← List.append_assoc] at this

theorem FileRan.refl (c : Cfg) (ino : Nat) (s : Sb) (hR : ∀ x, R x x) : FileRan c ino R s s :=
  ⟨inodeAt s ino, [], .refl c s, (Function.update_eq_self _ _).symm, fun _ => hR _⟩

/-- `btree_last64` and `btree_remove64` take the last block of a level. -/
theorem takeLast_spec (c : Cfg) (ino level : Nat) (s : Sb) {E : Stop → Sb → Prop} :
    Wp (takeLast ino level) (fun r s' => Ran c [] s s' ∧
      let i := inodeAt s ino
      r = (i.blockTree level).last ∧ match r with
        | none => inodeAt s' = inodeAt s
        | some (bix, _) => inodeAt s' = Function.update (inodeAt s) ino
            (setTree i level ((i.blockTree level).erase bix))) E s := by
  unfold takeLast
  refine (findOrCreateInode_spec c ino s).bind ?_
  rintro i s1 ⟨rfl, h1, hat1, hi⟩
  dsimp only
  cases hlast : ((inodeAt s ino).blockTree level).last with
  | none =>
    rw [OrdMap.last_eq_none.1 hlast]
    exact ⟨h1, rfl, hat1⟩
  | some e =>
    obtain ⟨bix, block⟩ := e
    have hget := (OrdMap.last_eq_some hlast).1
    simp only [Option.map_some, Option.getD_some, hget]
    refine (modifyInode_spec c hi fun i => by rw [setTree_di]).bind ?_
    rintro - s2 ⟨h2, hat2⟩
    exact ⟨by simpa using h1.trans h2, rfl, by rw [hat2, hat1]⟩

/-- The trees of the other levels keep their blocks. -/
theorem stored_blockTree {i : Inode} {bix ofs len l : Nat} (h0 : level ≠ 0) (hl : l ≠ level + 1) :
    (i.stored bix level ofs len).blockTree l = i.blockTree l := by
  unfold Inode.stored
  rw [if_neg (fun h => h0 h.1)]
  dsimp only
  unfold setSlot findOrCreateBlock growInodeHeight Inode.grow setTree
  split <;> split <;> simp [h0, Function.update_of_ne hl]

/-- One turn of the inner loop, which finds a block. -/
theorem flushTurn_ran {bix : Nat} {block : Block}
    (hlast : ((inodeAt s ino).blockTree level).last = some (bix, block)) (h : Ran c [] s s1)
    (hat : inodeAt s1 = Function.update (inodeAt s) ino
      (setTree (inodeAt s ino) level (((inodeAt s ino).blockTree level).erase bix)))
    (h1 : Filed c ⟨.block, ino, bix, level, block.bytes⟩ s1 s') :
    FileRan c ino (FlushTurn c ino level) s s' := by
  obtain ⟨o, ho, h1, hat1⟩ := h1.obj
  refine ⟨_, [o], by simpa using h.trans h1, by rw [hat1, hat, Function.update_idem],
    fun objs => ?_⟩
  dsimp only
  rw [Function.update_self]
  exact .mk hlast ho

/-- A turn takes one block from the level. -/
theorem FlushTurn.length {x y : FileState} (h0 : level ≠ 0) (h : FlushTurn c ino level x y) :
    (y.1.blockTree level).entries.length + 1 = (x.1.blockTree level).entries.length := by
  cases h with
  | mk hlast ho =>
    dsimp only
    rw [stored_blockTree h0 (by omega)]
    dsimp only [setTree]
    rw [Function.update_self]
    exact OrdMap.erase_last_length hlast

/-- The inner loop stores all blocks of the level, when it has enough turns. -/
theorem flushLevel_spec (h0 : level ≠ 0) : ∀ (n : Nat) (s : Sb), Ready s →
    Wp (flushLevel c ino level n)
      (fun r s' => r = 0 ∧ FileRan c ino (fun x y => ReflTransGen (FlushTurn c ino level) x y ∧
        ((x.1.blockTree level).entries.length ≤ n → (y.1.blockTree level).last = none)) s s' ∨
        r = - EIO ∧ Failed c s s')
      (fun _ s' => Halted c s s') s := by
  intro n
  induction n with
  | zero =>
    intro s _
    refine Or.inl ⟨rfl, .refl c ino s fun x => ⟨.refl, fun hlen => ?_⟩⟩
    exact OrdMap.last_eq_none_iff_entries.2 (List.length_eq_zero_iff.1 (Nat.le_zero.1 hlen))
  | succ n ih =>
    intro s hready
    unfold flushLevel
    refine (takeLast_spec c ino level s).bind ?_
    rintro r s1 ⟨h1, hr, hat1⟩
    cases r with
    | none =>
      refine Or.inl ⟨rfl, inodeAt s ino, [], h1, ?_, fun objs => ⟨.refl, fun _ => hr.symm⟩⟩
      rw [hat1, Function.update_eq_self]
    | some e =>
      obtain ⟨bix, block⟩ := e
      dsimp only at hat1 ⊢
      refine (logfsFileWrite_spec (h1.ready hready)).seq ?_ fun _ _ => h1.calm.halted
      rintro err s2 (⟨rfl, h2⟩ | ⟨rfl, hf⟩)
      · rw [if_neg (by decide)]
        have hturn := flushTurn_ran hr.symm h1 hat1 h2
        refine (ih s2 (hturn.ready hready)).mono ?_ fun _ _ => hturn.calm.halted
        rintro err s3 (⟨herr, h3⟩ | ⟨herr, hf⟩)
        · refine Or.inl ⟨herr, hturn.trans h3 fun x y z hxy hyz => ⟨.head hxy hyz.1, fun hlen =>
            hyz.2 ?_⟩⟩
          have := hxy.length h0
          omega
        · exact Or.inr ⟨herr, hturn.calm.failed hf⟩
      · rw [if_pos (by decide)]
        exact Or.inr ⟨rfl, h1.calm.failed hf⟩

/-- The outer loop empties the levels one after the other. -/
theorem flushLevels_spec : ∀ (n level : Nat) (s : Sb), level ≠ 0 → Ready s →
    Wp (flushLevels c ino n level)
      (fun r s' => r = 0 ∧ FileRan c ino (LevelsFlushed c ino n level) s s' ∨
        r = - EIO ∧ Failed c s s')
      (fun _ s' => Halted c s s') s := by
  intro n
  induction n with
  | zero => exact fun level s _ _ => Or.inl ⟨rfl, .refl c ino s fun x => rfl⟩
  | succ n ih =>
    intro level s h0 hready
    unfold flushLevels
    refine (findOrCreateInode_spec c ino s).bind ?_
    rintro i s1 ⟨rfl, h1, hat1, -⟩
    refine (flushLevel_spec h0 _ s1 (h1.ready hready)).seq ?_ fun _ _ => h1.calm.halted
    rintro err s2 (⟨rfl, h2⟩ | ⟨rfl, hf⟩)
    · rw [if_neg (by decide)]
      -- the number of turns is that of the blocks in this very inode
      have hlevel : FileRan c ino (LevelFlushed c ino level) s s2 := by
        obtain ⟨i, new, h2, hat2, hr⟩ := h2.change
        rw [hat1] at hat2 hr
        exact ⟨i, new, by simpa using h1.trans h2, hat2, fun objs =>
          ⟨(hr objs).1, (hr objs).2 (Nat.le_refl _)⟩⟩
      refine (ih (level + 1) s2 (by omega) (hlevel.ready hready)).mono ?_
        fun _ _ => hlevel.calm.halted
      rintro err s3 (⟨herr, h3⟩ | ⟨herr, hf⟩)
      · exact Or.inl ⟨herr, hlevel.trans h3 fun x y z hxy hyz => ⟨y, hxy, hyz⟩⟩
      · exact Or.inr ⟨herr, hlevel.calm.failed hf⟩
    · rw [if_pos (by decide)]
      exact Or.inr ⟨rfl, h1.calm.failed hf⟩

/-- `logfs_file_flush` leaves no block of the file behind. -/
theorem logfsFileFlush_spec (hready : Ready s) :
    Wp (logfsFileFlush c ino)
      (fun r s' => r = 0 ∧ FileRan c ino (FileFlushed c ino) s s' ∨ r = - EIO ∧ Failed c s s')
      (fun _ s' => Halted c s s') s := by
  unfold logfsFileFlush
  refine (findOrCreateInode_spec c ino s).bind ?_
  rintro i s1 ⟨rfl, h1, hat1, -⟩
  dsimp only
  rw [wp_ite]
  refine ⟨fun h0 => ?_, fun h0 => ?_⟩
  · exact Or.inl ⟨rfl, inodeAt s ino, [], h1, by rw [hat1, Function.update_eq_self], fun objs =>
      .flat h0⟩
  generalize hh : (inodeAt s ino).di.height = height at h0 ⊢
  refine (flushLevels_spec (height - 1) 1 s1 (by decide) (h1.ready hready)).seq ?_
    fun _ _ => h1.calm.halted
  rintro err s2 (⟨rfl, h2⟩ | ⟨rfl, hf⟩)
  · rw [if_neg (by decide)]
    have hs2 := h2.ready (h1.ready hready)
    have hcalm := h1.calm.trans h2.calm
    refine (takeLast_spec c ino height s2).bind ?_
    rintro r s3 ⟨h3, hr, hat3⟩
    cases r with
    | none => exact hcalm.halted ⟨s3, h3.calm, .here⟩
    | some e =>
      obtain ⟨bix, block⟩ := e
      dsimp only at hat3 ⊢
      refine (logfsSegmentWrite_spec block.bytes .block ino bix height (h3.ready hs2)).seq ?_
        fun _ _ => (hcalm.trans h3.calm).halted
      rintro ofs s4 (⟨o, ho, rfl, h4⟩ | ⟨rfl, hf⟩)
      · rw [if_neg (ofs_not_neg o)]
        have hino : o.ino = ino := congrArg Call.ino ho
        have hsome : (s4.inoTree.get ino).isSome := by
          rw [h4.inoTree, hino, growTree, OrdMap.get_insert_self]
          rfl
        refine (modifyInode_spec c hsome fun i => setData_usedBytes i indirectIndex _).bind ?_
        rintro - s5 ⟨h5, hat5⟩
        obtain ⟨i, new, h2, hat2, hrel⟩ := h2.change
        have hat4 := h4.inodeAt
        rw [hino] at hat4
        refine Or.inl ⟨rfl, setData (inodeAt s4 ino) indirectIndex (o.ofs c), o :: new,
          by simpa using h1.trans (h2.trans (h3.trans (h4.ran.trans h5))), ?_, fun objs => ?_⟩
        · rw [hat5, hat4, hat3, hat2, hat1]
          simp only [Function.update_idem, Int.toNat_natCast]
        · have hr2 := hrel objs
          rw [hat1] at hr2
          rw [hat2, Function.update_self] at hr
          have := FileFlushed.tall hh h0 hr2 hr.symm ho
          simpa only [hat4, hat3, hat2, Function.update_self, List.cons_append] using this
      · exact Or.inr ⟨rfl, (hcalm.trans h3.calm).failed hf⟩
  · rw [if_pos (by decide)]
    exact Or.inr ⟨rfl, h1.calm.failed hf⟩

end Flush

end Logfs.Mkfs
