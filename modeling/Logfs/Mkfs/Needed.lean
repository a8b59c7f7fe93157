import Logfs.Mkfs.Budget
import Logfs.Mkfs.Mount

/-!
# The segments of a new file system

What the files of a new file system take is known from the geometry: a block for
each block of the segment table, the indirect blocks above these, and two inodes,
each kind in an area of its own.
-/

namespace Logfs.Mkfs

open Relation (ReflTransGen)

/-! ## Indirect blocks -/

/-- The blocks of a level above `n` blocks. -/
def levelBlocks (n level : Nat) : Nat := (n + (512 ^ level - 1)) / 512 ^ level

/-- The segments of `levels` levels from `level` on. -/
def levelsTake (c : Cfg) (n : Nat) : Nat → Nat → Nat
  | 0, _ => 0
  | levels + 1, level =>
    bins c.perSegment 0 (levelBlocks n level) + levelsTake c n levels (level + 1)

/-- The segments of the indirect blocks of a file with `n` blocks: all blocks of the levels below
the top, and one of the top. -/
def flushTakes (c : Cfg) (n height : Nat) : Nat :=
  if height = 0 then 0 else levelsTake c n (height - 1) 1 + 1

section Levels

variable {c : Cfg} {level k n m : Nat} {f f0 : Nat → Option Nat} {tree : OrdMap Nat Block}
  {x : FileState}

theorem lt_levelBlocks : m < levelBlocks n level ↔ m * 512 ^ level < n := by
  have hpos : 0 < 512 ^ level := Nat.pow_pos (by decide)
  unfold levelBlocks
  rw [← Nat.succ_le_iff, Nat.le_div_iff_mul_le hpos, Nat.succ_mul]
  omega

/-- The blocks that a level has above those that are not in the inode. -/
theorem exists_block (h0 : level ≠ 0) (hn : i0Blocks < n) :
    (∃ b, b / 512 ^ level = m ∧ i0Blocks ≤ b ∧ b < n) ↔ m < levelBlocks n level := by
  have hpos : 0 < 512 ^ level := Nat.pow_pos (by decide)
  have hbig : i0Blocks < 512 ^ level :=
    lt_of_lt_of_le (by decide) (Nat.pow_le_pow_right (by decide) (Nat.pos_of_ne_zero h0))
  rw [lt_levelBlocks]
  constructor
  · rintro ⟨b, rfl, -, hb⟩
    exact lt_of_le_of_lt (Nat.div_mul_le_self b _) hb
  · intro hm
    rcases Nat.eq_zero_or_pos m with rfl | hm0
    · exact ⟨i0Blocks, Nat.div_eq_of_lt hbig, Nat.le_refl _, hn⟩
    · refine ⟨m * 512 ^ level, Nat.mul_div_cancel _ hpos, ?_, hm⟩
      have hle := Nat.le_mul_of_pos_left (512 ^ level) hm0
      omega

/-- The blocks in the tree of a level, if `k` of them are needed. -/
theorem Pointed.length (h : Pointed level f tree)
    (hk : ∀ m, (∃ n, n / 512 = m ∧ f n ≠ none) ↔ m < k) : tree.entries.length = k := by
  have hnodup : (tree.entries.map Prod.fst).Nodup :=
    List.pairwise_map.2 (tree.sorted.imp fun h => ne_of_gt h)
  have hset : (tree.entries.map Prod.fst).toFinset = (Finset.range k).image (blockName level) := by
    ext p
    rw [List.mem_toFinset, List.mem_map, Finset.mem_image]
    constructor
    · rintro ⟨⟨p', block⟩, hmem, rfl⟩
      have hne : tree.get p' ≠ none := by
        rw [OrdMap.mem_entries.1 hmem]
        exact Option.some_ne_none block
      obtain ⟨m, rfl⟩ := h.named p' hne
      exact ⟨m, Finset.mem_range.2 ((hk m).1 ((h.used m).1 hne)), rfl⟩
    · rintro ⟨m, hm, rfl⟩
      obtain ⟨block, hb⟩ := Option.ne_none_iff_exists'.1
        ((h.used m).2 ((hk m).2 (Finset.mem_range.1 hm)))
      exact ⟨(_, block), OrdMap.mem_entries.2 hb, rfl⟩
  have hcard := List.toFinset_card_of_nodup hnodup
  rw [hset, Finset.card_image_of_injective _ fun _ _ => blockName_inj, Finset.card_range,
    List.length_map] at hcard
  exact hcard.symm

/-- A level that is about to be flushed has a block for every 512 of the level below. -/
theorem Flushing.length (h : Flushing c ino f0 level f x) (hn : i0Blocks < n)
    (hf : ∀ b, f0 b ≠ none ↔ i0Blocks ≤ b ∧ b < n) :
    (x.1.blockTree (level + 1)).entries.length = levelBlocks n (level + 1) := by
  apply h.pointed.length
  intro m
  rw [← exists_block (Nat.succ_ne_zero level) hn, ← h.pointed.used, h.used]
  simp only [hf]

end Levels

/-! ## Height -/

/-- The height of the segment file. -/
def Cfg.segfileHeight (c : Cfg) : Nat :=
  if c.segfileBlocks ≤ i0Blocks then 0 else growHeight (c.segfileBlocks - 1) 8 0

/-- The height of a file whose last block is `b` is the least with room for it. -/
theorem height_unique {b h h' : Nat} (hb : b ≤ maxbix h) (hb' : b ≤ maxbix h')
    (hleast : h ≠ 0 → maxbix (h - 1) < b) (hleast' : h' ≠ 0 → maxbix (h' - 1) < b) : h = h' := by
  have hlt : ∀ {m n}, b ≤ maxbix m → (n ≠ 0 → maxbix (n - 1) < b) → n ≤ m := fun {m n} hm hn => by
    by_contra hgt
    have hmono : maxbix m ≤ maxbix (n - 1) := maxbix_mono (by omega)
    have := hn (by omega)
    omega
  exact Nat.le_antisymm (hlt hb' hleast) (hlt hb hleast')

theorem Spans.segfileHeight {c : Cfg} {height : Nat} {f : Nat → Option Nat} (h : Spans height f)
    (hf : ∀ b, f b ≠ none ↔ b < c.segfileBlocks) : height = c.segfileHeight := by
  have hind : ∀ b, indirect f b ≠ none ↔ i0Blocks ≤ b ∧ b < c.segfileBlocks := fun b => by
    rw [indirect_ne_none, hf]
  unfold Cfg.segfileHeight
  split_ifs with hsmall
  · by_contra h0
    obtain ⟨b, hb, -⟩ := h.least h0
    have := (hind b).1 hb
    omega
  · have hlast : indirect f (c.segfileBlocks - 1) ≠ none := (hind _).2 ⟨by omega, by omega⟩
    obtain ⟨-, hleast, hreach⟩ := growHeight_spec (c.segfileBlocks - 1) 8 0
    have hbelow := h.below _ ((hf (c.segfileBlocks - 1)).2 (by omega))
    apply height_unique (h.reach _ hlast)
    · apply hreach.resolve_right
      intro height
      rw [height] at hleast
      have hmono : maxbix 3 ≤ maxbix (0 + 8 - 1) := maxbix_mono (by decide)
      have := hleast.resolve_left (by decide)
      omega
    · intro h0
      obtain ⟨b, hb, hgt⟩ := h.least h0
      have := (hind b).1 hb
      omega
    · exact fun h0 => hleast.resolve_left h0

/-! ## Writing them -/

section Write

variable {c : Cfg} {s s1 s' : Sb} {ino level : Nat}

/-- The blocks of the segment file from `ofs` on. -/
theorem writeSegmentBlocks_gathers (hc : c.noSegs < 2 ^ 32 - 1) : ∀ (n ofs : Nat) (s : Sb),
    Tabled c s → c.segfileBlocks ≤ ofs + n →
    Wp (writeSegmentBlocks c n ofs)
      (fun r s' => Gathers c 0 ((s.area 0).takes c (c.segfileBlocks - ofs)) s (r = 0) s')
      (fun e s' => Stops c ((s.area 0).takes c (c.segfileBlocks - ofs)) s e s') s := by
  intro n
  induction n with
  | zero =>
    intro ofs s h hn
    rw [Nat.sub_eq_zero_of_le (by omega)]
    exact .done h rfl rfl
  | succ n ih =>
    intro ofs s h hn
    unfold writeSegmentBlocks
    rw [wp_ite, ← lt_segfileBlocks]
    refine ⟨fun hlt => ?_, fun hge => ?_⟩
    · rw [show c.segfileBlocks - ofs = c.segfileBlocks - (ofs + 1) + 1 by omega]
      apply (logfsFileWrite_puts hc h (by decide) (by decide)).seq
      · intro err s1 h1
        rw [wp_ite]
        refine ⟨fun hne => .failed h1.spends hne hne, fun heq => ?_⟩
        have heq : err = 0 := not_not.1 heq
        apply (ih (ofs + 1) s1 (h1.filled heq).tabled (by omega)).mono
        · exact fun _ _ h2 => h1.gathers heq h2
        · exact fun _ _ h2 => h1.stops heq h2
      · exact fun e s1 h1 => h1.mono (Area.needs_le _)
    · rw [Nat.sub_eq_zero_of_le (not_lt.1 hge)]
      exact .done h rfl rfl

/-- The inner loop of `logfs_file_flush` puts the blocks of a level into its area. -/
theorem flushLevel_gathers (hc : c.noSegs < 2 ^ 32 - 1) (h0 : level ≠ 0) (hlevel : level + 1 < 4)
    (hl : areaOf ino level < noAreas) : ∀ (n : Nat) (s : Sb), Ready s → Tabled c s →
    ((inodeAt s ino).blockTree level).entries.length = n →
    Wp (flushLevel c ino level n)
      (fun r s' =>
        Gathers c (areaOf ino level) ((s.area (areaOf ino level)).takes c n) s (r = 0) s')
      (fun e s' => Stops c ((s.area (areaOf ino level)).takes c n) s e s') s := by
  intro n
  induction n with
  | zero => exact fun s _ h _ => .done h rfl rfl
  | succ n ih =>
    intro s hready h hlen
    unfold flushLevel
    apply ((takeLast_spec c ino level s (E := fun _ _ => False)).and
      (takeLast_idle c ino level s (E := fun _ _ => False))).seq _ fun _ _ h => h.1.elim
    rintro r s1 ⟨⟨h1, hr, hat1⟩, hidle⟩
    cases r with
    | none =>
      rw [OrdMap.last_eq_none_iff_entries.1 hr.symm] at hlen
      cases hlen
    | some e =>
      obtain ⟨bix, block⟩ := e
      dsimp only at hat1 ⊢
      have hready1 := h1.ready hready
      apply ((logfsFileWrite_spec hready1).and
        (logfsFileWrite_puts hc (hidle.tabled h) hlevel hl)).seq
      · rintro err s2 ⟨⟨rfl, h2⟩ | ⟨rfl, -⟩, hputs⟩
        · rw [if_neg (by decide)]
          have hputs := hputs.of_idle hidle
          obtain ⟨i, new, h3, hat, hturn⟩ := (flushTurn_ran hr.symm h1 hat1 h2).change
          have hlen2 : ((inodeAt s2 ino).blockTree level).entries.length = n := by
            have hone := (hturn []).length h0
            rw [hat, Function.update_self]
            dsimp only at hone
            omega
          apply (ih s2 (h3.ready hready) (hputs.filled rfl).tabled hlen2).mono
          · exact fun _ _ h3 => hputs.gathers rfl h3
          · exact fun _ _ h3 => hputs.stops rfl h3
        · rw [if_pos (by decide)]
          exact .failed (hidle.spends.seq trivial hputs.spends) (by decide) (by decide)
      · rintro e s2 ⟨-, h2⟩
        rw [hidle.area] at h2
        exact (hidle.stops h2).mono (Area.needs_le _)

theorem areaOf_of_ne (hino : ino ≠ inoMaster) (level : Nat) : areaOf ino level = level :=
  if_neg hino

/-- The areas from `l` on have no segment. -/
def ClosedFrom (l : Nat) (s : Sb) : Prop := ∀ l', l ≤ l' → (s.area l').buf.isSome = false

/-- A part of a run that takes `n` segments, and opens no area from `l` on. -/
structure Takes (c : Cfg) (n l : Nat) (s : Sb) (good : Prop) (s' : Sb) : Prop where
  spends : Spends c n s good s'
  tabled : good → Tabled c s'
  closed : good → ClosedFrom l s'

theorem Takes.failed {good good' : Prop} {n m l : Nat} (h : Spends c m s good s') (hg : ¬ good)
    (hg' : ¬ good') : Takes c n l s good' s' :=
  ⟨h.failed hg hg', fun h => absurd h hg', fun h => absurd h hg'⟩

theorem Takes.seq {good good' : Prop} {n m l l' : Nat} (h : Takes c n l s good s1) (hg : good)
    (h1 : Takes c m l' s1 good' s') : Takes c (n + m) l' s good' s' :=
  ⟨h.spends.seq hg h1.spends, h1.tabled, h1.closed⟩

theorem Idle.takes {good : Prop} {n l : Nat} (h : Idle c s s1) (h1 : Takes c n l s1 good s') :
    Takes c n l s good s' := by
  rw [← Nat.zero_add n]
  exact ⟨h.spends.seq trivial h1.spends, h1.tabled, h1.closed⟩

theorem Idle.closed {l : Nat} (h : Idle c s s1) (hs : ClosedFrom l s) : ClosedFrom l s1 :=
  fun l' hl' => by rw [h.area, hs l' hl']

/-- Blocks that are put into the first area without a segment. -/
theorem Gathers.takes {good : Prop} {l n : Nat}
    (h : Gathers c l ((s.area l).takes c n) s good s') (hs : ClosedFrom l s) :
    Takes c (bins c.perSegment 0 n) (l + 1) s good s' := by
  have hspends := h.spends
  rw [Area.takes_none (hs l (Nat.le_refl l))] at hspends
  refine ⟨hspends, h.tabled, fun hg l' hl' => ?_⟩
  rw [h.others hg l' (by omega)]
  exact hs l' (by omega)

theorem stops_takes {e : Stop} {l n : Nat} (h : Stops c ((s.area l).takes c n) s e s')
    (hs : ClosedFrom l s) : Stops c (bins c.perSegment 0 n) s e s' := by
  rwa [Area.takes_none (hs l (Nat.le_refl l))] at h

/-- The outer loop of `logfs_file_flush`. -/
theorem flushLevels_takes (hc : c.noSegs < 2 ^ 32 - 1) (hino : ino ≠ inoMaster) {count : Nat}
    {f0 : Nat → Option Nat} (hcount : i0Blocks < count)
    (hf0 : ∀ b, f0 b ≠ none ↔ i0Blocks ≤ b ∧ b < count) : ∀ (n level : Nat)
    (f : Nat → Option Nat) (objs : List Obj) (s : Sb), Ready s → Tabled c s →
    level + n < 3 → Flushing c ino f0 level f (inodeAt s ino, objs) → ClosedFrom (level + 1) s →
    Wp (flushLevels c ino n (level + 1))
      (fun r s' => Takes c (levelsTake c count n (level + 1)) (level + 1 + n) s (r = 0) s')
      (fun e s' => Stops c (levelsTake c count n (level + 1)) s e s') s := by
  intro n
  induction n with
  | zero =>
    intro level f objs s _ h _ _ hclosed
    exact ⟨(Supply.Draws.refl s).returned trivial rfl, fun _ => h, fun _ => hclosed⟩
  | succ n ih =>
    intro level f objs s hready h hlt hfl hclosed
    unfold flushLevels
    apply ((findOrCreateInode_spec c ino s (E := fun _ _ => False)).and
      (findOrCreateInode_idle c ino s (E := fun _ _ => False))).seq _ fun _ _ h => h.1.elim
    rintro i s1 ⟨⟨rfl, h1, hat1, -⟩, hidle⟩
    have hlen : ((inodeAt s ino).blockTree (level + 1)).entries.length =
        levelBlocks count (level + 1) := hfl.length hcount hf0
    have hready1 := h1.ready hready
    have hclosed1 := hidle.closed hclosed
    have harea := areaOf_of_ne hino (level + 1)
    rw [hlen]
    have hl : areaOf ino (level + 1) < noAreas := by
      rw [harea]
      simp only [noAreas, maxLevels]
      omega
    have hgathers := flushLevel_gathers hc (Nat.succ_ne_zero level)
      (show level + 1 + 1 < 4 by omega) hl (levelBlocks count (level + 1)) s1 hready1
      (hidle.tabled h) (by rw [hat1, hlen])
    rw [harea] at hgathers
    apply ((flushLevel_spec (Nat.succ_ne_zero level) _ s1 hready1).and hgathers).seq
    · rintro err s2 ⟨⟨rfl, h2⟩ | ⟨rfl, -⟩, hg⟩
      · rw [if_neg (by decide)]
        have htakes := hidle.takes (hg.takes hclosed1)
        obtain ⟨i, new, h2, hat2, hr⟩ := h2.change
        have hlevel : LevelFlushed c ino (level + 1) (inodeAt s ino, objs) (i, new ++ objs) := by
          have hr := hr objs
          rw [hat1] at hr
          exact ⟨hr.1, hr.2 (by dsimp only; rw [hlen])⟩
        obtain ⟨⟨g, hg'⟩, -⟩ := hfl.next hlevel
        have hi : inodeAt s2 ino = i := by rw [hat2, Function.update_self]
        rw [← hi] at hg'
        have hrest := ih (level + 1) g (new ++ objs) s2 (h2.ready hready1) (htakes.tabled rfl)
          (by omega) hg' (htakes.closed rfl)
        apply hrest.mono
        · intro r s3 h3
          rw [show level + 1 + (n + 1) = level + 1 + 1 + n by omega]
          exact htakes.seq rfl h3
        · exact fun _ _ h3 => htakes.spends.stops rfl h3
      · rw [if_pos (by decide)]
        exact .failed (hidle.spends.seq trivial hg.spends) (by decide) (by decide)
    · rintro e s2 ⟨-, h2⟩
      exact (hidle.stops (stops_takes h2 hclosed1)).mono (Nat.le_add_right _ _)

/-- One object that is put into the first area without a segment. -/
theorem Puts.takes {good : Prop} {l size : Nat} (h : Puts c l size s good s')
    (hs : ClosedFrom l s) : Takes c 1 (l + 1) s good s' := by
  have hspends := h.spends
  rw [Area.needs_none (hs l (Nat.le_refl l))] at hspends
  refine ⟨hspends, fun hg => (h.filled hg).tabled, fun hg l' hl' => ?_⟩
  rw [(h.filled hg).others l' (by omega)]
  exact hs l' (by omega)

theorem stops_put {e : Stop} {l : Nat} (h : Stops c ((s.area l).needs c) s e s')
    (hs : ClosedFrom l s) : Stops c 1 s e s' := by
  rwa [Area.needs_none (hs l (Nat.le_refl l))] at h

/-- `logfs_file_flush` on a file whose blocks are the first `n`. -/
theorem logfsFileFlush_takes (hc : c.noSegs < 2 ^ 32 - 1) (hino : ino ≠ inoMaster) {n height : Nat}
    {f : Nat → Option Nat} (hready : Ready s) (h : Tabled c s) (hf : Unflushed (inodeAt s ino) f)
    (hheight : (inodeAt s ino).di.height = height) (hn : ∀ b, f b ≠ none ↔ b < n)
    (hclosed : ClosedFrom 1 s) :
    Wp (logfsFileFlush c ino) (fun r s' => Takes c (flushTakes c n height) 4 s (r = 0) s')
      (fun e s' => Stops c (flushTakes c n height) s e s') s := by
  unfold logfsFileFlush
  apply ((findOrCreateInode_spec c ino s (E := fun _ _ => False)).and
    (findOrCreateInode_idle c ino s (E := fun _ _ => False))).seq _ fun _ _ h => h.1.elim
  rintro i s1 ⟨⟨rfl, h1, hat1, -⟩, hidle⟩
  rw [hheight]
  unfold flushTakes
  rw [wp_ite]
  refine ⟨fun h0 => ?_, fun h0 => ?_⟩
  · rw [if_pos h0]
    exact ⟨hidle.spends.returned trivial rfl, fun _ => hidle.tabled h,
      fun _ l' hl' => hidle.closed hclosed l' (by omega)⟩
  rw [if_neg h0]
  obtain ⟨b, hb, -⟩ := hf.spans.least (by rwa [hheight])
  have hle := hf.spans.height_le
  rw [hheight] at hle
  have hcount : i0Blocks < n := by
    have hb := indirect_ne_none.1 hb
    exact lt_of_le_of_lt hb.1 ((hn b).1 hb.2)
  have hf0 : ∀ b, indirect f b ≠ none ↔ i0Blocks ≤ b ∧ b < n := fun b => by
    rw [indirect_ne_none, hn]
  have hready1 := h1.ready hready
  have hstart : ∀ objs, Flushing c ino (indirect f) 0 (indirect f) (inodeAt s1 ino, objs) := by
    rw [hat1]
    exact hf.flushing
  have htop := areaOf_of_ne hino height
  apply ((flushLevels_spec (height - 1) 1 s1 (by decide) hready1).and
    (flushLevels_takes hc hino hcount hf0 (height - 1) 0 _ [] s1 hready1 (hidle.tabled h)
      (by omega) (hstart []) (hidle.closed hclosed))).seq
  · rintro err s2 ⟨⟨rfl, h2⟩ | ⟨rfl, -⟩, hlevels⟩
    · rw [if_neg (by decide)]
      have hready2 := h2.ready hready1
      have hlevels := hidle.takes hlevels
      have hclosed2 : ClosedFrom height s2 := by
        have := hlevels.closed rfl
        rwa [show 0 + 1 + (height - 1) = height by omega] at this
      -- the top level has a block
      have hlen : ((inodeAt s2 ino).blockTree height).entries.length = levelBlocks n height := by
        obtain ⟨i, new, -, hat2, hr⟩ := h2.change
        obtain ⟨⟨g, hg⟩, -⟩ := (hstart []).all (hr [])
        have hlen := hg.length hcount hf0
        rw [show 0 + (height - 1) + 1 = height by omega] at hlen
        rw [hat2, Function.update_self]
        exact hlen
      have hpos : 0 < levelBlocks n height := lt_levelBlocks.2 (by omega)
      apply ((takeLast_spec c ino height s2 (E := fun _ _ => False)).and
        (takeLast_idle c ino height s2 (E := fun _ _ => False))).seq _ fun _ _ h => h.1.elim
      rintro r s3 ⟨⟨h3, hr, -⟩, hidle3⟩
      cases r with
      | none =>
        rw [OrdMap.last_eq_none_iff_entries.1 hr.symm] at hlen
        rw [← hlen] at hpos
        exact absurd hpos (Nat.lt_irrefl 0)
      | some e =>
        obtain ⟨bix, block⟩ := e
        have hl : areaOf ino height < noAreas := by
          rw [htop]
          simp only [noAreas, maxLevels]
          omega
        have hput := logfsSegmentWrite_puts hc block.bytes .block ino bix height
          (hidle3.tabled (hlevels.tabled rfl)) hl
        rw [htop] at hput
        have hclosed3 := hidle3.closed hclosed2
        apply hput.seq
        · intro ofs s4 h4
          have h4 := hidle3.takes (h4.takes hclosed3)
          rw [wp_ite]
          refine ⟨fun hneg => ?_, fun hpos => ?_⟩
          · exact .failed (hlevels.spends.seq rfl h4.spends) (by omega) (by omega)
          · apply (modifyInode_idle c ino _ s4).bind
            intro _ s5 h5
            have h4 := hlevels.seq rfl h4
            have hgood := not_lt.1 hpos
            refine ⟨(h4.spends.seq hgood h5.spends).returned trivial rfl,
              fun _ => h5.tabled (h4.tabled hgood), fun _ l' hl' => ?_⟩
            exact h5.closed (h4.closed hgood) l' (by omega)
        · intro e s4 h4
          exact hlevels.spends.stops rfl (hidle3.stops (stops_put h4 hclosed3))
    · rw [if_pos (by decide)]
      exact .failed (hidle.spends.seq trivial hlevels.spends) (by decide) (by decide)
  · rintro e s2 ⟨-, h2⟩
    exact (hidle.stops h2).mono (Nat.le_succ _)

theorem writeInode_puts (hc : c.noSegs < 2 ^ 32 - 1) (h : Tabled c s) :
    Wp (writeInode c ino)
      (fun r s' => Puts c maxLevels (objectHeadersize + objLen .inode) s (r = 0) s')
      (fun e s' => Stops c ((s.area maxLevels).needs c) s e s') s := by
  unfold writeInode
  apply (findOrCreateInode_idle c ino s).bind
  intro i s1 h1
  apply (logfsFileWrite_puts hc (h1.tabled h) (by decide) (by decide)).mono
  · exact fun _ _ h2 => .of_idle h1 h2
  · intro e s2 h2
    rw [h1.area] at h2
    exact h1.stops h2

/-- The segments of the segment file and the inodes. -/
def Cfg.segfileTakes (c : Cfg) : Nat :=
  bins c.perSegment 0 c.segfileBlocks + flushTakes c c.segfileBlocks c.segfileHeight + 1

/-- An inode leaves room for another one. -/
theorem Filled.inode_room (h : Filled c maxLevels ((s.area maxLevels).next c +
    (objectHeadersize + objLen .inode)) s s') (hs : ClosedFrom 4 s) :
    0 < (s'.area maxLevels).room c := by
  have htwo := c.two_blocks_le
  have hnext : (s.area maxLevels).next c = segmentHeadersize := by
    unfold Area.next
    rw [Area.room_none (hs maxLevels (by decide)), if_neg (Nat.lt_irrefl 0)]
  rw [Area.room_pos h.buf, h.usedBytes, hnext]
  simp only [segmentHeadersize, objectHeadersize, blocksize, blockshift, objLen]
  omega

/-- The bound on the turns of `write_segment_file` is one. -/
theorem segfile_turns (c : Cfg) :
    c.segfileBlocks ≤ 0 + (c.noSegs * 8 / blocksize + 1) := by
  unfold Cfg.segfileBlocks align
  rw [Nat.mul_div_cancel _ (by decide)]
  simp only [blocksize, blockshift]
  omega

theorem writeSegmentFile_takes (hc : c.noSegs < 2 ^ 32 - 1) (hready : Ready s) (h : Tabled c s)
    (hheld : FilesHeld c (fun _ _ => none) [] s) (hclosed : ClosedFrom 0 s) :
    Wp (writeSegmentFile c)
      (fun r s' => Spends c c.segfileTakes s (r = 0) s' ∧
        (r = 0 → Tabled c s' ∧ 0 < (s'.area maxLevels).room c))
      (fun e s' => Stops c c.segfileTakes s e s') s := by
  unfold writeSegmentFile
  apply ((findOrCreateInode_spec c inoSegfile s (E := fun _ _ => False)).and
    (findOrCreateInode_idle c inoSegfile s (E := fun _ _ => False))).seq _ fun _ _ h => h.1.elim
  rintro - s1 ⟨⟨-, h1, hat1, hi1⟩, hidle1⟩
  refine Wp.seq ((modifyInode_spec (E := fun _ _ => False) c hi1 ?_).and
    (modifyInode_idle (E := fun _ _ => False) c inoSegfile _ s1)) ?_ fun _ _ h => h.1.elim
  · exact fun i => rfl
  rintro - s2 ⟨⟨h2, hat2⟩, hidle2⟩
  have hidle := hidle1.trans hidle2
  have hready2 := h2.ready (h1.ready hready)
  have hheld2 : FilesHeld c (fun _ _ => none) [] s2 := by
    rw [hat1] at hat2
    exact hheld.modified (by rw [h2.objects, h1.objects]; rfl) hat2 ⟨rfl, rfl, rfl⟩
  have hturns := segfile_turns c
  unfold Cfg.segfileTakes
  apply ((writeSegmentBlocks_held _ 0 s2 _ hready2 hheld2 hturns).and
    (writeSegmentBlocks_gathers hc _ 0 s2 (hidle.tabled h) hturns)).seq
  · rintro err s3 ⟨hblocks, h3⟩
    have h3 := hidle.takes (h3.takes (hidle.closed hclosed))
    rw [wp_ite]
    refine ⟨fun hne => ⟨h3.spends.failed hne hne, fun h0 => absurd h0 hne⟩, fun h0 => ?_⟩
    have h0 := not_not.1 h0
    obtain ⟨hready3, -, hheld3⟩ := hblocks h0
    obtain ⟨f, hpoint, hf⟩ := hheld3.pending inoSegfile (by decide)
    rw [Function.update_self] at hpoint
    have hn : ∀ b, f b ≠ none ↔ b < c.segfileBlocks := fun b => by
      constructor
      · intro hne
        by_contra hge
        exact hne (hpoint.unwritten b (if_neg fun h => hge h.2))
      · intro hlt
        obtain ⟨o, -, -, ho⟩ := hpoint.written b _ (if_pos ⟨Nat.zero_le b, hlt⟩)
        rw [ho]
        exact Option.some_ne_none _
    rw [Nat.add_assoc]
    apply (logfsFileFlush_takes hc (by decide) hready3 (h3.tabled h0) hf
      (hf.spans.segfileHeight hn) hn (h3.closed h0)).seq
    · intro err s4 h4
      rw [wp_ite]
      refine ⟨fun hne => ⟨(h3.spends.seq h0 h4.spends).failed hne hne, fun h0 => absurd h0 hne⟩,
        fun h0' => ?_⟩
      have h0' := not_not.1 h0'
      have h34 := h3.seq h0 h4
      have hneeds : (s4.area maxLevels).needs c = 1 :=
        Area.needs_none (h34.closed h0' maxLevels (by decide))
      rw [← Nat.add_assoc]
      apply (writeInode_puts hc (h34.tabled h0')).mono
      · intro r s5 h5
        have hspends := h5.spends
        rw [hneeds] at hspends
        exact ⟨h34.spends.seq h0' hspends, fun hr =>
          ⟨(h5.filled hr).tabled, (h5.filled hr).inode_room (h34.closed h0')⟩⟩
      · intro e s5 h5
        rw [hneeds] at h5
        exact h34.spends.stops h0' h5
    · intro e s4 h4
      exact h3.spends.stops h0 (h4.mono (Nat.le_succ _))
  · rintro e s3 ⟨-, h3⟩
    rw [Nat.add_assoc]
    exact (hidle.stops (stops_takes h3 (hidle.closed hclosed))).mono (Nat.le_add_right _ _)

/-- `write_rootdir` takes no segment behind `write_segment_file`. -/
theorem writeRootdir_spends (hc : c.noSegs < 2 ^ 32 - 1) (h : Tabled c s)
    (hroom : 0 < (s.area maxLevels).room c) :
    Wp (writeRootdir c) (fun r s' => Spends c 0 s (r = 0) s' ∧ (r = 0 → Tabled c s'))
      (fun e s' => Stops c 0 s e s') s := by
  unfold writeRootdir
  apply (findOrCreateInode_idle c inoRoot s).bind
  intro _ s1 h1
  apply (modifyInode_idle c inoRoot _ s1).bind
  intro _ s2 h2
  have hidle := h1.trans h2
  have hneeds : (s2.area maxLevels).needs c = 0 := by
    unfold Area.needs
    rw [hidle.area, if_pos hroom]
  apply (writeInode_puts hc (hidle.tabled h)).mono
  · intro r s3 h3
    have hspends := h3.spends
    rw [hneeds] at hspends
    exact ⟨hidle.spends.seq trivial hspends, fun hr => (h3.filled hr).tabled⟩
  · intro e s3 h3
    rw [hneeds] at h3
    exact hidle.stops h3

/-- `flush_segments` takes none, and writes each area once. -/
theorem flushAreas_draws : ∀ (n i : Nat) (s : Sb), Tabled c s →
    Wp (flushAreas c n i)
      (fun r s' => (segments c).Draws n 0 s (r = 0) s' ∧ (r = 0 → Tabled c s'))
      (fun e s' => (segments c).Breaks n 0 s e s') s := by
  intro n
  induction n with
  | zero =>
    intro i s h
    exact ⟨(Supply.Draws.refl s).returned trivial rfl, fun _ => h⟩
  | succ n ih =>
    intro i s h
    have hone : Wp (if (s.area i).buf.isSome then finishArea c i true else pure 0)
        (fun r s' => (segments c).Draws 1 0 s (r = 0) s' ∧ (r = 0 → Tabled c s'))
        (fun e s' => (segments c).Breaks 1 0 s e s') s := by
      rw [wp_ite]
      refine ⟨fun hopen => ?_, fun _ => ?_⟩
      · apply finishArea_draws h hopen
        · intro s1 h1 harea hlast
          rw [if_pos rfl]
          exact ⟨h1.returned trivial rfl, fun _ => h.same harea hlast⟩
        · exact fun s1 h1 => ⟨h1.imp False.elim (by decide), fun h0 => absurd h0 (by decide)⟩
        · exact fun _ _ h => h
      · have hsame : (segments c).Draws 0 0 s True s := .refl s
        exact ⟨(hsame.mono (Nat.zero_le 1)).returned trivial rfl, fun _ => h⟩
    unfold flushAreas
    rw [wp_bind, wp_get]
    have hnext : ∀ (err : Int) (s1 : Sb),
        (segments c).Draws 1 0 s (err = 0) s1 ∧ (err = 0 → Tabled c s1) →
        Wp (if err ≠ 0 then pure err else flushAreas c n (i + 1))
          (fun r s' => (segments c).Draws (n + 1) 0 s (r = 0) s' ∧ (r = 0 → Tabled c s'))
          (fun e s' => (segments c).Breaks (n + 1) 0 s e s') s1 := by
      rintro err s1 ⟨h1, ht1⟩
      rw [wp_ite, Nat.add_comm n 1]
      refine ⟨fun hne => ⟨h1.mono (Nat.le_add_right 1 n), fun h0 => absurd h0 hne⟩, fun h0 => ?_⟩
      have h0 := not_not.1 h0
      apply (ih (i + 1) s1 (ht1 h0)).mono
      · rintro r s2 ⟨h2, ht2⟩
        exact ⟨h1.seq h0 h2, ht2⟩
      · exact fun _ _ h2 => h1.breaks h0 h2
    have hmore : Wp (if (s.area i).buf.isSome then finishArea c i true else pure 0)
        (fun r s' => (segments c).Draws 1 0 s (r = 0) s' ∧ (r = 0 → Tabled c s'))
        (fun e s' => (segments c).Breaks (n + 1) 0 s e s') s :=
      hone.mono (fun _ _ h => h) fun _ _ h => h.mono (Nat.le_add_left 1 n) (Nat.le_refl 0)
    rw [wp_ite] at hmore ⊢
    exact ⟨fun h => (hmore.1 h).bind hnext, fun h => (hmore.2 h).bind hnext⟩

end Write

end Logfs.Mkfs
