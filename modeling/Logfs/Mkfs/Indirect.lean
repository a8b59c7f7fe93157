import Logfs.Lib.Bits
import Logfs.Lib.Radix
import Logfs.Mkfs.Stages

/-!
# The pending indirect blocks of an inode

The blocks of a level are numbered; block `m` of a level points to the 512 blocks
from `512 * m` on of the level below, and the source calls it by the last index it
covers.  The tree of a level holds the pointers to the blocks below, by number;
that is what a write adds to, and what a flush empties into the next tree.
-/

namespace Logfs.Mkfs

open Relation (ReflTransGen)

/-! ## Blocks by number -/

/-- The index of block `m` of a level. -/
def blockName (level m : Nat) : Nat :=
  m * 2 ^ (blockBits * level) + (2 ^ (blockBits * level) - 1)

section Names

variable {level m m' bix : Nat}

theorem blockName_div : blockName level m / 2 ^ (blockBits * level) = m := by
  have hpos : 0 < 2 ^ (blockBits * level) := Nat.two_pow_pos _
  rw [blockName, Nat.mul_comm, Nat.mul_add_div hpos, Nat.div_eq_of_lt (by omega), Nat.add_zero]

theorem blockName_inj (h : blockName level m = blockName level m') : m = m' := by
  have hdiv : blockName level m / 2 ^ (blockBits * level) = m := blockName_div
  rw [← hdiv, h, blockName_div]

theorem le_of_blockName_le (h : blockName level m ≤ blockName level m') : m ≤ m' := by
  have := Nat.div_le_div_right (c := 2 ^ (blockBits * level)) h
  rwa [blockName_div, blockName_div] at this

theorem bixmask_eq : bixmask level = 2 ^ (blockBits * level) - 1 := by
  unfold bixmask
  split_ifs with h
  · subst h
    rfl
  · rfl

/-- The parent of an index. -/
theorem or_bixmask : bix ||| bixmask level = blockName level (bix / 2 ^ (blockBits * level)) := by
  rw [bixmask_eq, or_ones_eq, blockName]

theorem div_level_succ :
    bix / 2 ^ (blockBits * (level + 1)) = bix / 2 ^ (blockBits * level) / 512 := by
  rw [Nat.mul_succ, pow_add, ← Nat.div_div_eq_div_mul]
  rfl

end Names

/-! ## The pointers in a tree -/

/-- The blocks of the level in the tree hold the pointers `f` to the blocks of the level below. -/
structure Pointed (level : Nat) (f : Nat → Option Nat) (tree : OrdMap Nat Block) : Prop where
  named : ∀ p, tree.get p ≠ none → ∃ m, p = blockName level m
  used : ∀ m, tree.get (blockName level m) ≠ none ↔ ∃ n, n / 512 = m ∧ f n ≠ none
  slots : ∀ m block, tree.get (blockName level m) = some block →
    ∀ i < 512, block i = (f (512 * m + i)).getD 0
  small : ∀ n ofs, f n = some ofs → ofs < 2 ^ 32

section Pointed

variable {level : Nat} {f : Nat → Option Nat} {tree : OrdMap Nat Block}

theorem Pointed.empty (level : Nat) : Pointed level (fun _ => none) OrdMap.empty where
  named p h := absurd OrdMap.get_empty h
  used m := by simp
  slots m block h := by simp at h
  small n ofs h := by simp at h

/-- One more pointer. -/
theorem Pointed.insert (h : Pointed level f tree) (n : Nat) {ofs : Nat} (hofs : ofs < 2 ^ 32) :
    Pointed level (Function.update f n (some ofs)) (tree.insert (blockName level (n / 512))
      (Function.update ((tree.get (blockName level (n / 512))).getD fun _ => 0) (n % 512) ofs)) where
  named p hp := by
    rw [OrdMap.get_insert] at hp
    split_ifs at hp with heq
    · exact ⟨_, heq⟩
    · exact h.named p hp
  used m := by
    rw [OrdMap.get_insert]
    by_cases heq : blockName level m = blockName level (n / 512)
    · rw [if_pos heq, blockName_inj heq]
      simp only [ne_eq, reduceCtorEq, not_false_eq_true, true_iff]
      exact ⟨n, rfl, by rw [Function.update_self]; exact Option.some_ne_none ofs⟩
    · rw [if_neg heq, h.used]
      have hne : m ≠ n / 512 := fun hm => heq (by rw [hm])
      refine exists_congr fun x => and_congr_right fun hx => ?_
      rw [Function.update_of_ne]
      rintro rfl
      exact hne hx.symm
  slots m block hb i hi := by
    rw [OrdMap.get_insert] at hb
    split_ifs at hb with heq
    · have hm := blockName_inj heq
      subst hm
      rw [Option.some.injEq] at hb
      subst hb
      have hn := Nat.div_add_mod n 512
      by_cases hin : i = n % 512
      · subst hin
        rw [Function.update_self, hn, Function.update_self]
        rfl
      · rw [Function.update_of_ne hin, Function.update_of_ne (by omega)]
        cases hold : tree.get (blockName level (n / 512)) with
        | some block => exact h.slots _ block hold i hi
        | none =>
          -- the block is new, and nothing was in it
          have hnone := mt (h.used (n / 512)).2 (not_not.2 hold)
          push Not at hnone
          rw [hnone (512 * (n / 512) + i) (by omega)]
          rfl
    · have hne : m ≠ n / 512 := fun hm => heq (by rw [hm])
      rw [h.slots m block hb i hi, Function.update_of_ne]
      rintro rfl
      omega
  small x p hp := by
    rw [Function.update_apply] at hp
    split_ifs at hp with heq
    · rw [Option.some.injEq] at hp
      exact hp ▸ hofs
    · exact h.small x p hp

/-- The slots of a block are pointers of 32 bits. -/
theorem Pointed.slot_lt {m : Nat} {block : Block} (h : Pointed level f tree)
    (hb : tree.get (blockName level m) = some block) {i : Nat} (hi : i < 512) :
    block i < 2 ^ 32 := by
  rw [h.slots m block hb i hi]
  cases hf : f (512 * m + i) with
  | none => decide
  | some ofs => exact h.small _ _ hf

end Pointed

/-! ## A block is stored -/

section Stored

variable {i : Inode} {bix level ofs len l : Nat} {f : Nat → Option Nat} {tree : OrdMap Nat Block}

theorem setTree_self : (setTree i level tree).blockTree level = tree := Function.update_self _ _ _

theorem setTree_other (h : l ≠ level) : (setTree i level tree).blockTree l = i.blockTree l :=
  Function.update_of_ne h _ _

/-- The pointer goes to the tree of the next level. -/
theorem stored_tree (h : ¬ (level = 0 ∧ bix < i0Blocks)) :
    (i.stored bix level ofs len).blockTree (level + 1) =
      (i.blockTree (level + 1)).insert (bix ||| bixmask (level + 1)) (Function.update
        (((i.blockTree (level + 1)).get (bix ||| bixmask (level + 1))).getD fun _ => 0)
        (getBits bix level) ofs) := by
  unfold Inode.stored
  rw [if_neg h]
  have hgrow : (growInodeHeight i bix level).blockTree = i.blockTree := by
    unfold growInodeHeight
    split_ifs <;> rfl
  dsimp only
  unfold setSlot findOrCreateBlock Inode.grow setTree
  rw [hgrow]
  cases hb : (i.blockTree (level + 1)).get (bix ||| bixmask (level + 1)) with
  | none => simp [OrdMap.insert_insert]
  | some block => simp [hb, hgrow]

/-- The other trees do not change. -/
theorem stored_other (hl : l ≠ level + 1) :
    (i.stored bix level ofs len).blockTree l = i.blockTree l := by
  unfold Inode.stored
  split_ifs with h
  · rfl
  · have hgrow : (growInodeHeight i bix level).blockTree = i.blockTree := by
      unfold growInodeHeight
      split_ifs <;> rfl
    dsimp only
    unfold setSlot findOrCreateBlock Inode.grow setTree
    split <;> split <;> simp [hgrow, Function.update_of_ne hl]

theorem stored_di (h0 : level ≠ 0) : (i.stored bix level ofs len).di.height = i.di.height ∧
    (i.stored bix level ofs len).di.data = i.di.data := by
  unfold Inode.stored
  rw [if_neg fun h => h0 h.1]
  dsimp only
  rw [setSlot_di]
  unfold Inode.grow growInodeHeight
  dsimp only
  rw [findOrCreateBlock_di, if_pos h0]
  exact ⟨rfl, rfl⟩

theorem Pointed.stored (h : Pointed (level + 1) f (i.blockTree (level + 1)))
    (hbix : ¬ (level = 0 ∧ bix < i0Blocks)) (hofs : ofs < 2 ^ 32) :
    Pointed (level + 1) (Function.update f (bix / 2 ^ (blockBits * level)) (some ofs))
      ((i.stored bix level ofs len).blockTree (level + 1)) := by
  rw [stored_tree hbix, or_bixmask, div_level_succ]
  exact h.insert (bix / 2 ^ (blockBits * level)) hofs

end Stored

/-! ## The height -/

theorem maxbix_pos (height : Nat) : 0 < maxbix height := Nat.two_pow_pos _

theorem maxbix_mono {a b : Nat} (h : a ≤ b) : maxbix a ≤ maxbix b :=
  Nat.pow_le_pow_right (by decide) (Nat.mul_le_mul_left _ h)

/-- The loop stops at the first height with room, or when it is out of turns. -/
theorem growHeight_spec (bix : Nat) : ∀ turns height,
    height ≤ growHeight bix turns height ∧
      (growHeight bix turns height = height ∨ maxbix (growHeight bix turns height - 1) < bix) ∧
      (bix ≤ maxbix (growHeight bix turns height) ∨
        growHeight bix turns height = height + turns) := by
  intro turns
  induction turns with
  | zero => exact fun height => ⟨Nat.le_refl _, Or.inl rfl, Or.inr rfl⟩
  | succ turns ih =>
    intro height
    unfold growHeight
    split_ifs with h
    · obtain ⟨hle, hleast, hreach⟩ := ih (height + 1)
      refine ⟨by omega, Or.inr ?_, hreach.imp_right (by omega)⟩
      rcases hleast with heq | hlt
      · rw [heq]
        exact h
      · exact hlt
    · exact ⟨Nat.le_refl _, Or.inl rfl, Or.inl (not_lt.1 h)⟩

/-! ## Before the flush -/

/-- The pointers that are not in the inode itself. -/
def indirect (f : Nat → Option Nat) : Nat → Option Nat := fun b => if b < i0Blocks then none else f b

/-- The height is the least with room for the pointers that are not in the inode. -/
structure Spans (height : Nat) (f : Nat → Option Nat) : Prop where
  reach : ∀ b, indirect f b ≠ none → b ≤ maxbix height
  least : height ≠ 0 → ∃ b, indirect f b ≠ none ∧ maxbix (height - 1) < b
  below : ∀ b, f b ≠ none → b < maxbix 3

/-- An inode with the blocks `f` written and not flushed. -/
structure Unflushed (i : Inode) (f : Nat → Option Nat) : Prop where
  direct : ∀ b < i0Blocks, i.di.data b = (f b).getD 0
  rest : ∀ b, i0Blocks ≤ b → i.di.data b = 0
  pointed : Pointed 1 (indirect f) (i.blockTree 1)
  upper : ∀ l, 1 < l → i.blockTree l = .empty
  spans : Spans i.di.height f

section Unflushed

variable {i : Inode} {f : Nat → Option Nat} {bix ofs len height : Nat}

theorem indirect_ne_none {b : Nat} : indirect f b ≠ none ↔ i0Blocks ≤ b ∧ f b ≠ none := by
  unfold indirect
  split_ifs with h
  · simp only [ne_eq, not_true_eq_false, false_iff, not_and, not_not]
    omega
  · simp only [not_lt.1 h, true_and]

theorem indirect_of_le {b : Nat} (h : i0Blocks ≤ b) : indirect f b = f b := if_neg (by omega)

theorem indirect_update_of_lt (h : bix < i0Blocks) (p : Option Nat) :
    indirect (Function.update f bix p) = indirect f := by
  funext b
  unfold indirect
  split_ifs with hb
  · rfl
  · rw [Function.update_of_ne]
    omega

theorem indirect_update_of_le (h : i0Blocks ≤ bix) (p : Option Nat) :
    indirect (Function.update f bix p) = Function.update (indirect f) bix p := by
  funext b
  unfold indirect
  by_cases hb : b = bix
  · subst hb
    rw [Function.update_self, Function.update_self, if_neg (by omega)]
  · rw [Function.update_of_ne hb, Function.update_of_ne hb]

theorem update_some_ne_none {b : Nat} :
    Function.update f bix (some ofs) b ≠ none ↔ b = bix ∨ f b ≠ none := by
  rw [Function.update_apply]
  split_ifs with h <;> simp [h]

theorem Unflushed.fresh : Unflushed .zero fun _ => none where
  direct b _ := rfl
  rest b _ := rfl
  pointed := by
    have : indirect (fun _ => none) = fun _ => none := by
      funext b
      simp [indirect]
    rw [this]
    exact .empty 1
  upper l _ := rfl
  spans := ⟨fun b h => by simp [indirect] at h, fun h => absurd rfl h, fun b h => absurd rfl h⟩

theorem Spans.direct (h : Spans height f) (hbix : bix < i0Blocks) :
    Spans height (Function.update f bix (some ofs)) := by
  have hsmall : i0Blocks ≤ maxbix 3 := by decide
  refine ⟨?_, ?_, fun b hb => ?_⟩
  · rw [indirect_update_of_lt hbix]
    exact h.reach
  · rw [indirect_update_of_lt hbix]
    exact h.least
  · rcases update_some_ne_none.1 hb with rfl | hb
    · omega
    · exact h.below b hb

/-- The loop of `grow_inode` finds the height. -/
theorem Spans.grow (h : Spans height f) (hind : i0Blocks ≤ bix) (hbix : bix < maxbix 3) :
    Spans (growHeight bix 8 height) (Function.update f bix (some ofs)) := by
  obtain ⟨hle, hleast, hreach⟩ := growHeight_spec bix 8 height
  refine ⟨fun b hb => ?_, fun h0 => ?_, fun b hb => ?_⟩
  · rw [indirect_update_of_le hind] at hb
    rcases update_some_ne_none.1 hb with rfl | hb
    · refine hreach.resolve_right fun heq => ?_
      -- after eight turns the loop would have left the range behind
      have hlt := hleast.resolve_left (by omega)
      have := maxbix_mono (show 3 ≤ growHeight b 8 height - 1 by omega)
      omega
    · exact le_trans (h.reach b hb) (maxbix_mono hle)
  · rw [indirect_update_of_le hind]
    rcases hleast with heq | hlt
    · rw [heq] at h0 ⊢
      obtain ⟨b, hb, hgt⟩ := h.least h0
      exact ⟨b, update_some_ne_none.2 (Or.inr hb), hgt⟩
    · exact ⟨bix, update_some_ne_none.2 (Or.inl rfl), hlt⟩
  · rcases update_some_ne_none.1 hb with rfl | hb
    · exact hbix
    · exact h.below b hb

theorem stored_indirect_di (h : i0Blocks ≤ bix) :
    (i.stored bix 0 ofs len).di.height = growHeight bix 8 i.di.height ∧
      (i.stored bix 0 ofs len).di.data = i.di.data := by
  unfold Inode.stored
  rw [if_neg fun hc => by omega]
  dsimp only
  rw [setSlot_di]
  unfold Inode.grow growInodeHeight
  dsimp only
  rw [findOrCreateBlock_di, if_neg (not_not.2 rfl)]
  exact ⟨rfl, rfl⟩

/-- One more block is written. -/
theorem Unflushed.write (h : Unflushed i f) (hbix : bix < maxbix 3) (hofs : ofs < 2 ^ 32) :
    Unflushed (i.stored bix 0 ofs len) (Function.update f bix (some ofs)) := by
  rcases Nat.lt_or_ge bix i0Blocks with hdir | hind
  · -- the pointer goes into the inode
    have hst : i.stored bix 0 ofs len = setData (i.grow len) bix ofs := if_pos ⟨rfl, hdir⟩
    rw [hst]
    refine ⟨fun b hb => ?_, fun b hb => ?_, ?_, h.upper, h.spans.direct hdir⟩
    · dsimp only [setData, Inode.grow]
      rw [Function.update_apply, Function.update_apply]
      split_ifs
      · rfl
      · exact h.direct b hb
    · dsimp only [setData, Inode.grow]
      rw [Function.update_of_ne (by omega)]
      exact h.rest b hb
    · rw [indirect_update_of_lt hdir]
      exact h.pointed
  · obtain ⟨hheight, hdata⟩ : (i.stored bix 0 ofs len).di.height = growHeight bix 8 i.di.height ∧
        (i.stored bix 0 ofs len).di.data = i.di.data := stored_indirect_di hind
    refine ⟨fun b hb => ?_, fun b hb => ?_, ?_, fun l hl => ?_, ?_⟩
    · rw [hdata, Function.update_of_ne (by omega)]
      exact h.direct b hb
    · rw [hdata]
      exact h.rest b hb
    · rw [indirect_update_of_le hind]
      have hp : Pointed (0 + 1) (Function.update (indirect f) (bix / 2 ^ (blockBits * 0)) (some ofs))
          ((i.stored bix 0 ofs len).blockTree (0 + 1)) :=
        h.pointed.stored (fun hc => by omega) hofs
      simpa using hp
    · rw [stored_other (by omega)]
      exact h.upper l hl
    · rw [hheight]
      exact h.spans.grow hind hbix

end Unflushed

/-! ## A level is flushed -/

/-- The object with this level and index that was last stored for the file, among those whose offset
is `p`. -/
def storedAt (c : Cfg) (ino : Nat) (objs : List Obj) (level bix p : Nat) : Option Obj :=
  objs.find? fun o => o.ino = ino ∧ o.level = level ∧ o.bix = bix ∧ o.ofs c = p

/-- Block `m` of the level is stored at the offset. -/
def BlockAt (c : Cfg) (ino : Nat) (objs : List Obj) (level m p : Nat) (block : Block) : Prop :=
  (∀ i < 512, block i < 2 ^ 32) ∧ ∃ o, storedAt c ino objs level (blockName level m) p = some o ∧
    o.type = .block ∧ o.data = block.bytes

theorem ofs_lt (c : Cfg) (o : Obj) : o.ofs c < 2 ^ 32 := Nat.mod_lt _ (by decide)

theorem storedAt_eq_some {c : Cfg} {ino level bix p : Nat} {objs : List Obj} {o : Obj}
    (h : storedAt c ino objs level bix p = some o) : o ∈ objs ∧ o.ofs c = p := by
  have hp := List.find?_some h
  exact ⟨List.mem_of_find?_eq_some h, (of_decide_eq_true hp).2.2.2⟩

section Stores

variable {c : Cfg} {ino level m p : Nat} {objs new : List Obj} {block : Block} {o : Obj}

/-- The objects that were added are not the block. -/
theorem BlockAt.mono (h : BlockAt c ino objs level m p block)
    (hnew : ∀ o ∈ new, o.ino = ino → o.level = level → o.bix ≠ blockName level m) :
    BlockAt c ino (new ++ objs) level m p block := by
  obtain ⟨hlt, o, ho, h⟩ := h
  refine ⟨hlt, o, ?_, h⟩
  unfold storedAt at ho ⊢
  rw [List.find?_append, List.find?_eq_none.2, Option.none_or, ho]
  intro x hx hdec
  have hx' := of_decide_eq_true hdec
  exact hnew x hx hx'.1 hx'.2.1 hx'.2.2.1

theorem BlockAt.cons (h : BlockAt c ino objs level m p block)
    (ho : o.level = level → o.bix ≠ blockName level m) :
    BlockAt c ino (o :: objs) level m p block := by
  have hmono : BlockAt c ino ([o] ++ objs) level m p block := h.mono fun o' ho' _ => by
    rw [List.mem_singleton.1 ho']
    exact ho
  exact hmono

/-- The object that was stored last is its block. -/
theorem blockAt_cons_self (hlt : ∀ i < 512, block i < 2 ^ 32)
    (ho : o.call = ⟨.block, ino, blockName level m, level, block.bytes⟩) :
    BlockAt c ino (o :: objs) level m (o.ofs c) block := by
  refine ⟨hlt, o, List.find?_cons_of_pos ?_, congrArg Call.type ho, congrArg Call.data ho⟩
  exact decide_eq_true ⟨congrArg Call.ino ho, congrArg Call.level ho, congrArg Call.bix ho, rfl⟩

end Stores

/-- Some blocks of the level are stored, and `g` has the pointers to them; the others are still in
the tree. -/
structure Raising (c : Cfg) (ino level : Nat) (tree : OrdMap Nat Block) (g : Nat → Option Nat)
    (x : FileState) : Prop where
  next : Pointed (level + 1) g (x.1.blockTree (level + 1))
  named : ∀ p, (x.1.blockTree level).get p ≠ none → ∃ m, p = blockName level m ∧ g m = none
  kept : ∀ m, g m = none →
    (x.1.blockTree level).get (blockName level m) = tree.get (blockName level m)
  stored : ∀ m p, g m = some p → ∃ block, tree.get (blockName level m) = some block ∧
    BlockAt c ino x.2 level m p block
  upper : ∀ l, level + 1 < l → x.1.blockTree l = .empty

/-- The turns do not touch the inode on the medium, and store objects of the levels from `lo` to
`hi`. -/
structure SameRoot (lo hi : Nat) (x y : FileState) : Prop where
  height : y.1.di.height = x.1.di.height
  data : y.1.di.data = x.1.di.data
  adds : ∃ new, y.2 = new ++ x.2 ∧ ∀ o ∈ new, lo ≤ o.level ∧ o.level < hi

section Raising

variable {c : Cfg} {ino level lo lo' hi hi' : Nat} {f g : Nat → Option Nat}
  {tree : OrdMap Nat Block} {x y z : FileState}

theorem SameRoot.refl (lo hi : Nat) (x : FileState) : SameRoot lo hi x x :=
  ⟨rfl, rfl, [], rfl, by simp⟩

theorem SameRoot.trans (h : SameRoot lo hi x y) (h1 : SameRoot lo hi y z) : SameRoot lo hi x z := by
  obtain ⟨new, hx, hnew⟩ := h.adds
  obtain ⟨new1, hy, hnew1⟩ := h1.adds
  refine ⟨h1.height.trans h.height, h1.data.trans h.data, new1 ++ new,
    by rw [hy, hx, List.append_assoc], fun o ho => ?_⟩
  rcases List.mem_append.1 ho with ho | ho
  · exact hnew1 o ho
  · exact hnew o ho

theorem SameRoot.mono (h : SameRoot lo hi x y) (hlo : lo' ≤ lo) (hhi : hi ≤ hi') :
    SameRoot lo' hi' x y := by
  obtain ⟨new, hx, hnew⟩ := h.adds
  exact ⟨h.height, h.data, new, hx, fun o ho => ⟨le_trans hlo (hnew o ho).1,
    lt_of_lt_of_le (hnew o ho).2 hhi⟩⟩

theorem FlushTurn.sameRoot (h : FlushTurn c ino level x y) (h0 : level ≠ 0) :
    SameRoot level (level + 1) x y := by
  cases h with
  | @mk _ _ _ _ o hlast ho =>
    obtain ⟨hheight, hdata⟩ := stored_di (i := setTree _ level _) h0
    have hlevel : o.level = level := congrArg Call.level ho
    exact ⟨hheight, hdata, [o], rfl, by simp [hlevel]⟩

/-- Nothing is stored yet. -/
theorem Raising.start (hp : Pointed level f (x.1.blockTree level))
    (hupper : ∀ l, level < l → x.1.blockTree l = .empty) :
    Raising c ino level (x.1.blockTree level) (fun _ => none) x where
  next := by
    rw [hupper _ (Nat.lt_succ_self _)]
    exact .empty _
  named p h := (hp.named p h).imp fun m hm => ⟨hm, rfl⟩
  kept m _ := rfl
  stored m p h := by simp at h
  upper l hl := hupper l (by omega)

/-- One turn of the inner loop. -/
theorem Raising.turn (h : Raising c ino level tree g x) (hp : Pointed level f tree) (h0 : level ≠ 0)
    (hturn : FlushTurn c ino level x y) : ∃ g', Raising c ino level tree g' y := by
  cases hturn with
  | @mk i objs bix block o hlast ho =>
    have hget := (OrdMap.last_eq_some hlast).1
    obtain ⟨m, rfl, hm⟩ := h.named bix (by rw [hget]; exact Option.some_ne_none block)
    have htree : tree.get (blockName level m) = some block := by rw [← h.kept m hm, hget]
    set i' := setTree i level ((i.blockTree level).erase (blockName level m)) with hi'
    have hthis : (i'.stored (blockName level m) level (o.ofs c) o.size).blockTree level =
        (i.blockTree level).erase (blockName level m) := by
      rw [stored_other (by omega), hi', setTree_self]
    have hother : ∀ l, l ≠ level → i'.blockTree l = i.blockTree l := fun l hl => setTree_other hl
    refine ⟨Function.update g m (some (o.ofs c)), ?_, fun p hne => ?_, fun n hn => ?_,
      fun n p hnp => ?_, fun l hl => ?_⟩
    · have hnext : Pointed (level + 1) g (i'.blockTree (level + 1)) := by
        rw [hother _ (by omega)]
        exact h.next
      have hst : Pointed (level + 1) (Function.update g (blockName level m /
          2 ^ (blockBits * level)) (some (o.ofs c)))
          ((i'.stored (blockName level m) level (o.ofs c) o.size).blockTree (level + 1)) :=
        hnext.stored (fun hc => h0 hc.1) (ofs_lt c o)
      rwa [blockName_div] at hst
    · dsimp only at hne
      rw [hthis, OrdMap.get_erase] at hne
      split_ifs at hne with heq
      · exact absurd rfl hne
      · obtain ⟨n, rfl, hn⟩ := h.named p hne
        refine ⟨n, rfl, ?_⟩
        rw [Function.update_of_ne]
        · exact hn
        · rintro rfl
          exact heq rfl
    · dsimp only
      rw [hthis, OrdMap.get_erase]
      rw [Function.update_apply] at hn
      split_ifs at hn with heq
      rw [if_neg fun hc => heq (blockName_inj hc)]
      exact h.kept n hn
    · rw [Function.update_apply] at hnp
      split_ifs at hnp with heq
      · subst heq
        rw [Option.some.injEq] at hnp
        subst hnp
        exact ⟨block, htree, blockAt_cons_self (fun _ => hp.slot_lt htree) ho⟩
      · obtain ⟨block', hb, hat⟩ := h.stored n p hnp
        have hbix : o.bix = blockName level m := congrArg Call.bix ho
        refine ⟨block', hb, hat.cons fun _ hn => heq ?_⟩
        rw [hbix] at hn
        exact (blockName_inj hn).symm
    · dsimp only
      rw [stored_other (by omega), hother l (by omega)]
      exact h.upper l hl

theorem Raising.turns (h : Raising c ino level tree g x) (hp : Pointed level f tree) (h0 : level ≠ 0)
    (hturns : ReflTransGen (FlushTurn c ino level) x y) :
    (∃ g', Raising c ino level tree g' y) ∧ SameRoot level (level + 1) x y := by
  induction hturns with
  | refl => exact ⟨⟨g, h⟩, .refl _ _ x⟩
  | tail _ hturn ih =>
    obtain ⟨⟨g', h'⟩, hs⟩ := ih
    exact ⟨h'.turn hp h0 hturn, hs.trans (hturn.sameRoot h0)⟩

/-- When the tree is empty the next level covers this one. -/
theorem Raising.covers (h : Raising c ino level tree g x) (hp : Pointed level f tree)
    (hempty : (x.1.blockTree level).last = none) : Radix.Covers 512 (BlockAt c ino x.2 level) f g where
  used m := by
    rw [← hp.used]
    constructor
    · intro hg
      obtain ⟨p, hg⟩ := Option.ne_none_iff_exists'.1 hg
      obtain ⟨block, hb, -⟩ := h.stored m p hg
      rw [hb]
      exact Option.some_ne_none block
    · intro htree hg
      rw [← h.kept m hg, OrdMap.last_eq_none.1 hempty] at htree
      exact htree rfl
  stored m p hg := by
    obtain ⟨block, hb, hat⟩ := h.stored m p hg
    exact ⟨block, hat, hp.slots m block hb⟩

end Raising

/-! ## All levels are flushed -/

/-- The levels below are stored; the blocks of this one are in its tree. -/
structure Flushing (c : Cfg) (ino : Nat) (f0 : Nat → Option Nat) (level : Nat)
    (f : Nat → Option Nat) (x : FileState) : Prop where
  layers : Radix.Layers 512 (BlockAt c ino x.2) f0 level f
  pointed : Pointed (level + 1) f (x.1.blockTree (level + 1))
  upper : ∀ l, level + 1 < l → x.1.blockTree l = .empty

section Flushing

variable {c : Cfg} {ino level n : Nat} {f0 f : Nat → Option Nat} {x y : FileState} {i : Inode}

theorem Unflushed.flushing (h : Unflushed i f) (objs : List Obj) :
    Flushing c ino (indirect f) 0 (indirect f) (i, objs) := ⟨.base, h.pointed, h.upper⟩

/-- The tree of the next level has the blocks with anything below them. -/
theorem Flushing.used (h : Flushing c ino f0 level f x) (m : Nat) :
    (x.1.blockTree (level + 1)).get (blockName (level + 1) m) ≠ none ↔
      ∃ b, b / 512 ^ (level + 1) = m ∧ f0 b ≠ none := by
  have hdiv : ∀ b, b / 512 ^ level / 512 = b / 512 ^ (level + 1) := fun b => by
    rw [Nat.pow_succ, Nat.div_div_eq_div_mul]
  rw [h.pointed.used]
  constructor
  · rintro ⟨n, rfl, hn⟩
    obtain ⟨b, rfl, hb⟩ := (h.layers.used n).1 hn
    exact ⟨b, (hdiv b).symm, hb⟩
  · rintro ⟨b, rfl, hb⟩
    exact ⟨b / 512 ^ level, hdiv b, (h.layers.used _).2 ⟨b, rfl, hb⟩⟩

theorem Flushing.next (h : Flushing c ino f0 level f x) (hl : LevelFlushed c ino (level + 1) x y) :
    (∃ g, Flushing c ino f0 (level + 1) g y) ∧ SameRoot (level + 1) (level + 2) x y := by
  obtain ⟨⟨g, hg⟩, hs⟩ := (Raising.start h.pointed h.upper).turns h.pointed (by omega) hl.turns
  obtain ⟨new, hy, hnew⟩ := hs.adds
  refine ⟨⟨g, .up (h.layers.mono fun k hk _ _ _ hb => ?_) (hg.covers h.pointed hl.empty),
    hg.next, hg.upper⟩, hs⟩
  -- the objects of this level are no blocks of those below
  rw [hy]
  refine hb.mono fun o ho _ hlevel _ => ?_
  have := (hnew o ho).1
  omega

theorem Flushing.all (h : Flushing c ino f0 level f x)
    (hl : LevelsFlushed c ino n (level + 1) x y) :
    (∃ g, Flushing c ino f0 (level + n) g y) ∧ SameRoot (level + 1) (level + n + 1) x y := by
  induction n generalizing level f x with
  | zero =>
    rw [show y = x from hl]
    exact ⟨⟨f, h⟩, .refl _ _ x⟩
  | succ n ih =>
    obtain ⟨z, hz, hy⟩ := hl
    obtain ⟨⟨g, hg⟩, hs⟩ := h.next hz
    obtain ⟨hg', hs'⟩ := ih hg hy
    rw [Nat.add_right_comm] at hg'
    exact ⟨hg', (hs.mono (Nat.le_refl _) (by omega)).trans (hs'.mono (by omega) (by omega))⟩

end Flushing

end Logfs.Mkfs
