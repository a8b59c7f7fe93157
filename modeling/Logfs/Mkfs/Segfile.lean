import Logfs.Mkfs.Recorded

/-!
# The segment file

The segment table is stored in two halves: `write_segment_file` stores blocks of
zeros, and `je_alias` lists the entries that are not zero as aliases of pointers
in these blocks.  A reader lays the aliases over the blocks.
-/

namespace Logfs.Mkfs

/-! ## Reading -/

/-- The fields of a `struct logfs_obj_alias`. -/
structure Alias where
  ino : Nat
  bix : Nat
  val : Nat
  level : Nat
  childNo : Nat
deriving DecidableEq, Repr

def readAlias (buf : Buf) (ofs : Nat) : Alias where
  ino := beNat (peek buf ofs 8)
  bix := beNat (peek buf (ofs + 8) 8)
  val := beNat (peek buf (ofs + 16) 8)
  level := beNat (peek buf (ofs + 24) 1)
  childNo := beNat (peek buf (ofs + 30) 2)

/-- The aliases in the data of a journal entry. -/
def readAliases (data : List UInt8) : List Alias :=
  (List.range (data.length / 32)).map fun k => readAlias (padded 0 data) (32 * k)

/-- A file, as its blocks. -/
abbrev BlockFile := Nat → Option Buf

/-- The blocks of the segment file among the objects stored, newest first. -/
def segfileOf (objs : List Obj) : BlockFile := fun bix =>
  (objs.find? fun o => o.ino = inoSegfile ∧ o.level = 0 ∧ o.bix = bix).map Obj.data

/-- The pointer an alias stands for is overwritten in its block. -/
def overlay (file : BlockFile) (a : Alias) : BlockFile :=
  Function.update file a.bix ((file a.bix).map fun buf => poke buf (8 * a.childNo) (be 8 a.val))

/-- Entry `i` of the table, at byte `8 * i` of the file. -/
def readEntry (file : BlockFile) (i : Nat) : Option SegEntry :=
  (file (8 * i / blocksize)).map fun buf =>
    ⟨beNat (peek buf (8 * i % blocksize) 4), beNat (peek buf (8 * i % blocksize + 4) 4)⟩

/-- What an alias points to. -/
def Alias.slot (a : Alias) : Nat × Nat := (a.bix, a.childNo)

/-! ## Aliases over blocks -/

/-- The file holds these bytes at a slot. -/
def Holds (file : BlockFile) (slot : Nat × Nat) (bs : List UInt8) : Prop :=
  ∃ buf, file slot.1 = some buf ∧ At buf (8 * slot.2) bs

section Overlay

variable {file : BlockFile} {a : Alias} {l : List Alias} {slot : Nat × Nat} {bs : List UInt8}

/-- The slot of the alias holds its value. -/
theorem holds_overlay (h : (file a.bix).isSome) : Holds (overlay file a) a.slot (be 8 a.val) := by
  obtain ⟨buf, hbuf⟩ := Option.isSome_iff_exists.1 h
  refine ⟨poke buf (8 * a.childNo) (be 8 a.val), ?_, at_poke _ _ _⟩
  rw [overlay, hbuf]
  exact Function.update_self ..

/-- The other slots keep what they hold. -/
theorem Holds.overlay (h : Holds file slot bs) (hlen : bs.length = 8) (hne : a.slot ≠ slot) :
    Holds (overlay file a) slot bs := by
  obtain ⟨buf, hbuf, hat⟩ := h
  unfold Mkfs.overlay
  by_cases hb : slot.1 = a.bix
  · refine ⟨poke buf (8 * a.childNo) (be 8 a.val), ?_, hat.poke_disjoint ?_⟩
    · rw [hb, Function.update_self, ← hb, hbuf]
      rfl
    · have hc : a.childNo ≠ slot.2 := fun hc => hne (Prod.ext hb.symm hc)
      rw [be_length, hlen]
      omega
  · exact ⟨buf, by rw [Function.update_of_ne hb, hbuf], hat⟩

theorem Holds.foldl (h : Holds file slot bs) (hlen : bs.length = 8)
    (hne : ∀ a ∈ l, a.slot ≠ slot) : Holds (l.foldl Mkfs.overlay file) slot bs := by
  induction l generalizing file with
  | nil => exact h
  | cons a l ih =>
    exact ih (h.overlay hlen (hne a List.mem_cons_self)) fun b hb =>
      hne b (List.mem_cons_of_mem _ hb)

theorem overlay_isSome {bix : Nat} (h : (file bix).isSome) : (overlay file a bix).isSome := by
  unfold overlay
  rw [Function.update_apply]
  split_ifs with hb
  · subst hb
    rw [Option.isSome_map]
    exact h
  · exact h

/-- An alias that no other one overwrites can be read. -/
theorem holds_foldl (hd : (l.map Alias.slot).Nodup) (ha : a ∈ l) (h : (file a.bix).isSome) :
    Holds (l.foldl overlay file) a.slot (be 8 a.val) := by
  induction l generalizing file with
  | nil => cases ha
  | cons b l ih =>
    rw [List.map_cons, List.nodup_cons] at hd
    rcases List.mem_cons.1 ha with rfl | ha
    · refine (holds_overlay h).foldl (be_length _ _) fun b hb heq => hd.1 ?_
      exact List.mem_map.2 ⟨b, hb, heq⟩
    · exact ih hd.2 ha (overlay_isSome h)

/-- An entry is the two halves of what its slot holds. -/
theorem Holds.readEntry {i : Nat} {e : SegEntry}
    (h : Holds file (i / blockFactor, i % blockFactor) (be 4 e.ecLevel ++ be 4 e.valid))
    (he : e.ecLevel < 2 ^ 32 ∧ e.valid < 2 ^ 32) : readEntry file i = some e := by
  obtain ⟨buf, hbuf, hat⟩ := h
  obtain ⟨h1, h2⟩ := at_append.1 hat
  rw [be_length] at h2
  have hdiv : 8 * i / blocksize = i / blockFactor := by
    simp only [blocksize, blockshift, blockFactor]
    omega
  have hmod : 8 * i % blocksize = 8 * (i % blockFactor) := by
    simp only [blocksize, blockshift, blockFactor]
    omega
  rw [Mkfs.readEntry, hdiv, hmod, hbuf, Option.map_some, h1.beNat_eq (by omega),
    h2.beNat_eq (by omega)]

end Overlay

/-! ## The aliases of the table -/

/-- The alias of entry `i`. -/
def entryAlias (s : Sb) (i : Nat) : Alias :=
  ⟨inoSegfile, i / blockFactor, (s.segmentEntry i).ecLevel * 2 ^ 32 + (s.segmentEntry i).valid, 0,
    i % blockFactor⟩

/-- All entries of the table consist of 32 bit words. -/
def TableWords (c : Cfg) (s : Sb) : Prop :=
  ∀ i, i < c.noSegs → (s.segmentEntry i).ecLevel < 2 ^ 32 ∧ (s.segmentEntry i).valid < 2 ^ 32

section Aliases

variable {c : Cfg} {s : Sb}

theorem readAlias_eq {buf : Buf} {ofs : Nat} {a : Alias} (hino : a.ino < 2 ^ 64)
    (hbix : a.bix < 2 ^ 64) (hval : a.val < 2 ^ 64) (hl : a.level = 0) (hc : a.childNo < 2 ^ 16)
    (h : At buf ofs (aliasBytes a.ino a.bix a.val a.childNo)) : readAlias buf ofs = a := by
  simp only [aliasBytes, at_append, List.append_assoc, be_length] at h
  obtain ⟨h1, h2, h3, h4, -, h6⟩ := h
  unfold readAlias
  rw [h1.beNat_eq (by omega), h2.beNat_eq (by omega),
    show beNat (peek buf (ofs + 16) 8) = a.val from h3.beNat_eq (by omega),
    show beNat (peek buf (ofs + 24) 1) = 0 from h4.beNat_eq (by decide),
    show beNat (peek buf (ofs + 30) 2) = a.childNo from h6.beNat_eq (by omega), ← hl]

/-- Records of 32 bytes, one behind the other. -/
theorem at_flatten {rs : List (List UInt8)} (h : ∀ r ∈ rs, r.length = 32) (k : Nat)
    (hk : k < rs.length) : At (padded 0 rs.flatten) (32 * k) rs[k] := by
  have hsplit : rs = rs.take k ++ rs[k] :: rs.drop (k + 1) := by
    rw [List.cons_getElem_drop_succ, List.take_append_drop]
  have hlen : (rs.take k).flatten.length = 32 * k := by
    rw [List.length_flatten, List.map_congr_left fun r hr => h r (List.mem_of_mem_take hr)]
    simp [Nat.mul_comm, Nat.min_eq_left (le_of_lt hk)]
  have hflat : rs.flatten = (rs.take k).flatten ++ rs[k] ++ (rs.drop (k + 1)).flatten := by
    rw [List.append_assoc, ← List.flatten_cons, ← List.flatten_append, ← hsplit]
  have hp := peek_padded 0 (rs.take k).flatten rs[k] (rs.drop (k + 1)).flatten
  rwa [hlen, ← hflat] at hp

theorem segmentAliases_eq (c : Cfg) (s : Sb) : segmentAliases c s =
    ((List.range c.noSegs).filter fun i => s.segmentEntry i ≠ .zero).map fun i =>
      aliasBytes inoSegfile (i / blockFactor)
        ((s.segmentEntry i).ecLevel <<< 32 ||| (s.segmentEntry i).valid) (i % blockFactor) := by
  unfold segmentAliases
  induction List.range c.noSegs with
  | nil => rfl
  | cons i l ih =>
    rw [List.filterMap_cons, List.filter_cons]
    by_cases hz : s.segmentEntry i = .zero
    · simp [segmentAlias, hz, SegEntry.zero, ih]
    · have hne : (s.segmentEntry i).ecLevel ≠ 0 ∨ (s.segmentEntry i).valid ≠ 0 := by
        by_contra hno
        rw [not_or, not_not, not_not] at hno
        exact hz (by rw [← show (⟨_, _⟩ : SegEntry) = s.segmentEntry i from rfl, hno.1, hno.2]; rfl)
      simp [segmentAlias, hz, hne, ih]

theorem entryAlias_val {i : Nat} (hv : (s.segmentEntry i).valid < 2 ^ 32) :
    (s.segmentEntry i).ecLevel <<< 32 ||| (s.segmentEntry i).valid = (entryAlias s i).val := by
  rw [← Nat.shiftLeft_add_eq_or_of_lt hv, Nat.shiftLeft_eq]
  rfl

/-- What is read back are the aliases of the entries that are not zero. -/
theorem readAliases_eq (hsegs : c.noSegs < 2 ^ 31) (hw : TableWords c s) :
    readAliases (segmentAliases c s).flatten =
      ((List.range c.noSegs).filter fun i => s.segmentEntry i ≠ .zero).map (entryAlias s) := by
  have hall := segmentAliases_length32 c s
  unfold readAliases
  rw [segmentAliases_flatten_length, Nat.mul_div_cancel_left _ (by decide)]
  refine List.ext_getElem (by simp [segmentAliases_eq]) fun k h1 h2 => ?_
  have hk : k < (segmentAliases c s).length := by simpa using h1
  have hat := at_flatten hall k hk
  rw [List.getElem_map, List.getElem_range, List.getElem_map]
  rw [List.length_map] at h2
  generalize hi : ((List.range c.noSegs).filter fun i => s.segmentEntry i ≠ .zero)[k] = i
  have hmem : i ∈ (List.range c.noSegs).filter fun i => s.segmentEntry i ≠ .zero :=
    hi ▸ List.getElem_mem h2
  have hlt : i < c.noSegs := List.mem_range.1 (List.mem_filter.1 hmem).1
  obtain ⟨he, hv⟩ := hw i hlt
  have hbytes : (segmentAliases c s)[k] = aliasBytes (entryAlias s i).ino (entryAlias s i).bix
      (entryAlias s i).val (entryAlias s i).childNo := by
    rw [← entryAlias_val hv]
    simp only [segmentAliases_eq, List.getElem_map, hi]
    rfl
  rw [hbytes] at hat
  refine readAlias_eq ?_ ?_ ?_ rfl ?_ hat
  · show inoSegfile < 2 ^ 64
    decide
  · show i / 512 < 2 ^ 64
    omega
  · show (s.segmentEntry i).ecLevel * 2 ^ 32 + (s.segmentEntry i).valid < 2 ^ 64
    omega
  · show i % 512 < 2 ^ 16
    omega

theorem alias_slots_nodup (c : Cfg) (s : Sb) (p : Nat → Bool) :
    ((((List.range c.noSegs).filter p).map (entryAlias s)).map Alias.slot).Nodup := by
  rw [List.map_map]
  refine List.Nodup.map (fun i j hij => ?_) (List.nodup_range.filter _)
  simp only [Function.comp, Alias.slot, entryAlias, Prod.mk.injEq, blockFactor] at hij
  omega

end Aliases

/-! ## The two halves together -/

/-- The segment file `file` with these aliases stands for the table. -/
structure Represents (c : Cfg) (s : Sb) (file : BlockFile) (aliases : List Alias) : Prop where
  entries : ∀ i, i < c.noSegs →
    readEntry (aliases.foldl overlay file) i = some (s.segmentEntry i)
  stored : ∀ a ∈ aliases, a.ino = inoSegfile ∧ a.level = 0 ∧ (file a.bix).isSome ∧
    a.childNo < blockFactor
  distinct : (aliases.map Alias.slot).Nodup
  nonzero : ∀ i, i < c.noSegs → s.segmentEntry i = ⟨0, 0⟩ →
    ∀ a ∈ aliases, a.slot ≠ (i / blockFactor, i % blockFactor)

/-- Blocks of zeros, as many as `write_segment_file` writes. -/
def zeroBlocks (c : Cfg) : BlockFile := fun bix =>
  if bix < c.segfileBlocks then some fun _ => 0 else none

section Represent

variable {c : Cfg} {s : Sb}

theorem div_lt_segfileBlocks {i : Nat} (hi : i < c.noSegs) :
    i / blockFactor < c.segfileBlocks := by
  rw [lt_segfileBlocks]
  simp only [blockFactor, blocksize, blockshift]
  omega

theorem represents (hsegs : c.noSegs < 2 ^ 31) (hw : TableWords c s) :
    Represents c s (zeroBlocks c) (readAliases (segmentAliases c s).flatten) := by
  rw [readAliases_eq hsegs hw]
  have hsome : ∀ i, i < c.noSegs → zeroBlocks c (i / blockFactor) = some fun _ => 0 :=
    fun i hi => if_pos (div_lt_segfileBlocks hi)
  have hslots : ∀ i, ∀ a ∈ ((List.range c.noSegs).filter fun i => s.segmentEntry i ≠ .zero).map
      (entryAlias s), a.slot = (i / blockFactor, i % blockFactor) →
      i < c.noSegs ∧ s.segmentEntry i ≠ .zero := by
    intro i a ha heq
    obtain ⟨j, hj, rfl⟩ := List.mem_map.1 ha
    obtain ⟨hj, hne⟩ := List.mem_filter.1 hj
    simp only [Alias.slot, entryAlias, Prod.mk.injEq, blockFactor] at heq
    obtain rfl : j = i := by omega
    exact ⟨List.mem_range.1 hj, by simpa using hne⟩
  refine ⟨fun i hi => ?_, fun a ha => ?_, alias_slots_nodup c s _, fun i hi hz a ha heq => ?_⟩
  · refine Holds.readEntry ?_ (hw i hi)
    by_cases hz : s.segmentEntry i = .zero
    · -- nothing overwrites the zeros of the block
      rw [hz]
      refine Holds.foldl ⟨_, hsome i hi, ?_⟩ (by simp) fun a ha heq => (hslots i a ha heq).2 hz
      rw [at_iff]
      intro k hk
      have hk' : k < 8 := by simpa using hk
      interval_cases k <;> rfl
    · have ha : entryAlias s i ∈ ((List.range c.noSegs).filter
          fun i => s.segmentEntry i ≠ .zero).map (entryAlias s) :=
        List.mem_map.2 ⟨i, List.mem_filter.2 ⟨List.mem_range.2 hi, by simpa using hz⟩, rfl⟩
      have h := holds_foldl (alias_slots_nodup c s _) ha (by
        show (zeroBlocks c (i / blockFactor)).isSome
        rw [hsome i hi]
        rfl)
      rwa [show (entryAlias s i).val = (s.segmentEntry i).ecLevel * 256 ^ 4 +
        (s.segmentEntry i).valid from rfl, be_append (w := 4) (v := 4) (hw i hi).2] at h
  · obtain ⟨i, hi, rfl⟩ := List.mem_map.1 ha
    have hi := List.mem_range.1 (List.mem_filter.1 hi).1
    refine ⟨rfl, rfl, ?_, Nat.mod_lt _ (by decide)⟩
    show (zeroBlocks c (i / blockFactor)).isSome
    rw [hsome i hi]
    rfl
  · exact (hslots i a ha heq).2 hz

/-- A block of the segment file that was stored is one of those `write_segment_file` writes. -/
theorem SegfileObjs.mem {new : List Obj} (h : SegfileObjs c s new) {o : Obj} (ho : o ∈ new)
    (hino : o.ino = inoSegfile) (hlevel : o.level = 0) :
    ∃ bix, bix < c.segfileBlocks ∧ o.call = segfileCall bix := by
  obtain ⟨blocks, indirect, i, rfl, hblocks, hind, hi⟩ := h.split
  rcases List.mem_cons.1 ho with rfl | ho
  · have : o.ino = inoMaster := congrArg Call.ino hi
    rw [hino] at this
    exact absurd this (by decide)
  rcases List.mem_append.1 ho with ho | ho
  · exact absurd hlevel (hind o ho).level_pos
  · have hmem : o.call ∈ blocks.map Obj.call := List.mem_map_of_mem ho
    rw [hblocks, List.mem_reverse, List.mem_map] at hmem
    obtain ⟨bix, hbix, hcall⟩ := hmem
    exact ⟨bix, List.mem_range.1 hbix, hcall.symm⟩

/-- All of these blocks are stored. -/
theorem SegfileObjs.exists {new : List Obj} (h : SegfileObjs c s new) {bix : Nat}
    (hbix : bix < c.segfileBlocks) : ∃ o ∈ new, o.call = segfileCall bix := by
  obtain ⟨blocks, indirect, i, rfl, hblocks, -, -⟩ := h.split
  have hmem : segfileCall bix ∈ blocks.map Obj.call := by
    rw [hblocks, List.mem_reverse]
    exact List.mem_map_of_mem (List.mem_range.2 hbix)
  obtain ⟨o, ho, hcall⟩ := List.mem_map.1 hmem
  exact ⟨o, by simp [ho], hcall⟩

/-- The blocks of the segment file are zeros. -/
theorem segfileOf_eq {new : List Obj} (h : SegfileObjs c s new) : segfileOf new = zeroBlocks c := by
  funext bix
  unfold segfileOf zeroBlocks
  cases hf : new.find? fun o => o.ino = inoSegfile ∧ o.level = 0 ∧ o.bix = bix with
  | some o =>
    have hp : o.ino = inoSegfile ∧ o.level = 0 ∧ o.bix = bix := by simpa using List.find?_some hf
    obtain ⟨b, hb, hcall⟩ := h.mem (List.mem_of_find?_eq_some hf) hp.1 hp.2.1
    have hbix : o.bix = b := congrArg Call.bix hcall
    rw [if_pos (by omega), Option.map_some, show o.data = fun _ => 0 from congrArg Call.data hcall]
  | none =>
    rw [if_neg]
    · rfl
    · intro hlt
      obtain ⟨o, ho, hcall⟩ := h.exists hlt
      have hno := List.find?_eq_none.1 hf o ho
      refine hno ?_
      have h1 : o.ino = inoSegfile := congrArg Call.ino hcall
      have h2 : o.level = 0 := congrArg Call.level hcall
      have h3 : o.bix = bix := congrArg Call.bix hcall
      simp [h1, h2, h3]

theorem First.objects {k : Nat} {s1 s' : Sb} (h : First c k s1 s') :
    objects s'.trace = objects s1.trace := by
  obtain ⟨s2, s3, hbad, ht, rfl⟩ := h.chain
  exact ((SameStore.of_badTurns hbad).trans ht.sameStore).objects

theorem Prepared.objects {k1 k2 : Nat} {s1 s' : Sb} (h : Prepared c k1 k2 s1 s') :
    objects s'.trace = objects s1.trace := by
  obtain ⟨s2, s3, h1, h2, rfl⟩ := h.steps
  refine Eq.trans ?_ h1.objects
  show Mkfs.objects s3.trace = _
  cases h2 with
  | bdev _ _ _ h => rw [h]
  | mtd _ h =>
    obtain ⟨fails, hf, hs3⟩ := h.same
    rw [hs3]
    show Mkfs.objects (fails ++ s2.trace) = _
    clear hs3
    induction fails with
    | nil => rfl
    | cons e fails ih =>
      obtain ⟨j, rfl, -⟩ := hf _ List.mem_cons_self
      exact ih fun e he => hf e (List.mem_cons_of_mem _ he)

/-- The blocks of zeros that a run of mkfs stores, and the aliases of the table, stand for the
table. -/
theorem segment_file_represents_table (c : Cfg) (os : List Outcome) (s1 s2 s3 : Sb)
    (h1 : mkfsPrepare c (Sb.zero os) = .ok () s1) (h2 : prepareJournal c s1 = .ok () s2)
    (h3 : writeSegmentFile c s2 = .ok 0 s3) (s : Sb) (hsegs : c.noSegs < 2 ^ 31)
    (hwords : TableWords c s) :
    segfileOf (objects s3.trace) = zeroBlocks c ∧
      Represents c s (segfileOf (objects s3.trace))
        (readAliases (segmentAliases c s).flatten) := by
  obtain ⟨k1, k2, hp⟩ := (mkfsPrepare_spec rfl).of_ok h1
  obtain ⟨hj, -⟩ := (prepareJournal_spec s1).of_ok h2
  obtain ⟨-, new, hnew, hobjs⟩ := ((writeSegmentFile_spec (hj.ready hp.ready)).of_ok h3).resolve_right
    fun h => absurd h.1 (by decide)
  have hobj : objects s3.trace = new := by
    rw [hnew.objects, hj.objects, hp.objects]
    simp [Sb.zero, objects]
  rw [hobj, segfileOf_eq hobjs]
  exact ⟨rfl, represents hsegs hwords⟩

/-- A table in which all but the first entry have an alias. -/
def sampleTable : Sb := { Sb.zero [] with segmentEntry := fun i => ⟨i, 2 * i⟩ }

theorem segment_file_represents_table_sixteen :
    let s3 := after (writeSegmentFile sixteenGiB) (after (prepareJournal sixteenGiB)
      (after (mkfsPrepare sixteenGiB) (badStart 0)))
    segfileOf (objects s3.trace) = zeroBlocks sixteenGiB ∧
      Represents sixteenGiB sampleTable (segfileOf (objects s3.trace))
        (readAliases (segmentAliases sixteenGiB sampleTable).flatten) := by
  obtain ⟨_, h1⟩ := ok_of_returns (m := mkfsPrepare sixteenGiB) (s := badStart 0) (by decide +kernel)
  obtain ⟨_, h2⟩ := ok_of_returns (m := prepareJournal sixteenGiB)
    (s := after (mkfsPrepare sixteenGiB) (badStart 0)) (by decide +kernel)
  have h3 := ok_of_returnsZero (m := writeSegmentFile sixteenGiB)
    (s := after (prepareJournal sixteenGiB) (after (mkfsPrepare sixteenGiB) (badStart 0)))
    (by decide +kernel)
  refine segment_file_represents_table sixteenGiB _ _ _ _ h1 h2 h3 sampleTable (by decide) ?_
  intro i hi
  have hi : i < 16 := hi
  exact ⟨by show i < 2 ^ 32; omega, by show 2 * i < 2 ^ 32; omega⟩

end Represent

end Logfs.Mkfs
