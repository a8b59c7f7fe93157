import Logfs.Mkfs.Commit

/-!
# Where the superblocks are

`prepare_sb` reserves two segments and sets two offsets.  The first superblock
is at the beginning of its segment; the second one is to be at the end of its
segment, and both are as long as a write of the device has to be.
-/

namespace Logfs.Mkfs

open Relation (ReflTransGen)

/-! ## The entries after `prepare_sb` -/

section Entries

variable {c : Cfg} {s s1 s' : Sb} {os : List Outcome} {k k1 k2 i : Nat}

theorem reservedEntry_ne_bad : badEntry ≠ reservedEntry := by decide

theorem badTurns_lastseg (h : ReflTransGen (BadTurn c) s s') : s.lastseg ≤ s'.lastseg := by
  induction h with
  | refl => exact Nat.le_refl _
  | tail _ hb ih =>
    rw [hb.same]
    exact Nat.le_succ_of_le ih

/-- The segments that were tried in vain are bad. -/
theorem badTurns_entry (h : ReflTransGen (BadTurn c) s s') (i : Nat) : s'.segmentEntry i =
    if s.lastseg ≤ i ∧ i < s'.lastseg then badEntry else s.segmentEntry i := by
  induction h with
  | refl => rw [if_neg (by omega)]
  | @tail b s' hbs hb ih =>
    have hle := badTurns_lastseg hbs
    rw [hb.same]
    dsimp only
    rw [Function.update_apply]
    by_cases heq : i = b.lastseg
    · rw [if_pos heq, if_pos (by omega)]
      rfl
    · rw [if_neg heq, ih]
      by_cases hlt : s.lastseg ≤ i ∧ i < b.lastseg
      · rw [if_pos hlt, if_pos (by omega)]
      · rw [if_neg hlt, if_neg (by omega)]

theorem badTurns_erased (h : ReflTransGen (BadTurn c) s s') :
    .erase i true ∈ s'.trace ↔ .erase i true ∈ s.trace := by
  induction h with
  | refl => rfl
  | tail _ hb ih =>
    rw [← ih, hb.same]
    simp

/-- `prepare_sb` has marked these segments, and `get_segment` has returned the first of them. -/
structure Marked (k1 k2 : Nat) (s : Sb) : Prop where
  entry : ∀ i, s.segmentEntry i = reservedEntry ↔ i = k1 ∨ i = k2
  erased : ∀ i, .erase i true ∈ s.trace ↔ i = k1

theorem First.marked (h : First c k (Sb.zero os) s') : Marked k k s' := by
  obtain ⟨s1, s2, hbad, ht, rfl⟩ := h.chain
  have hk := ht.segno_eq
  constructor
  · intro i
    dsimp only
    rw [Function.update_apply, or_self]
    split_ifs with heq
    · exact iff_of_true rfl heq
    · refine iff_of_false ?_ heq
      rw [ht.same]
      dsimp only
      rw [badTurns_entry hbad]
      split_ifs
      · exact reservedEntry_ne_bad
      · exact reservedEntry_ne_zero.symm
  · intro i
    dsimp only
    rw [ht.same]
    simp only [List.mem_cons, reduceCtorEq, Event.erase.injEq, and_true, false_or]
    rw [badTurns_erased hbad]
    simp [Sb.zero]

theorem Second.marked (h1 : First c k1 (Sb.zero os) s1) (h : Second c k2 s1 s') :
    Marked k1 k2 s' := by
  have hm := h1.marked
  have hentry : s'.segmentEntry = Function.update s1.segmentEntry k2 reservedEntry := by
    cases h with
    | bdev _ _ _ h => rw [h]
    | mtd _ h =>
      obtain ⟨fails, -, hs'⟩ := h.same
      rw [hs']
  constructor
  · intro i
    rw [hentry, Function.update_apply]
    split_ifs with heq
    · exact iff_of_true rfl (Or.inr heq)
    · rw [hm.entry, or_self]
      exact ⟨Or.inl, fun h => h.resolve_right heq⟩
  · intro i
    rw [← hm.erased i]
    cases h with
    | bdev _ _ _ h => rw [h]
    | mtd _ h =>
      obtain ⟨fails, hfails, hs'⟩ := h.same
      have hno : .erase i true ∉ fails := fun hmem => by
        obtain ⟨j, hj, -⟩ := hfails _ hmem
        cases hj
      rw [hs']
      simp [hno]

end Entries

/-! ## The two copies -/

/-- The bytes `make_super` writes from `ofs` on are in the file system, and in segments that
`prepare_sb` has marked. -/
def CopyFits (c : Cfg) (s : Sb) (ofs : Nat) : Prop := ∀ x, ofs ≤ x → x < ofs + c.secsize →
  x < c.noSegs * c.segsize ∧ s.segmentEntry (x / c.segsize) = ⟨ecLevel 1 0, reserved⟩

/-- On flash a write is at most a page of four kilobytes; on a block device the segment before
the last one is the first that could be erased. -/
def PlacesSuper (c : Cfg) (s : Sb) : Prop :=
  match c.kind with
  | .mtd => c.writesize ≤ 0x1000
  | .bdev => 2 ≤ c.noSegs ∧ .erase (c.noSegs - 2) true ∈ s.trace

section Copies

variable {c : Cfg} {s s1 s' : Sb} {os : List Outcome} {k k1 k2 : Nat}

theorem secsize_eq (c : Cfg) : c.secsize = max 256 c.writesize := by
  have h : ∀ w, w ≤ 16 → align 256 (2 ^ w) = max 256 (2 ^ w) := by decide
  exact h _ c.writeshift_le

theorem secsize_le (c : Cfg) : c.secsize ≤ c.segsize := by
  have h1 := c.two_blocks_le
  have h2 : c.writesize ≤ c.segsize := Nat.pow_le_pow_right (by decide) c.writeshift_le_segshift
  rw [secsize_eq]
  exact max_le (by omega) h2

theorem div_segsize {x : Nat} (h : InSegment c k x) : x / c.segsize = k := by
  obtain ⟨h1, h2⟩ := h
  refine Nat.div_eq_of_lt_le h1 ?_
  rw [Nat.add_mul, Nat.one_mul]
  exact h2

theorem lt_of_inSegment {x : Nat} (h : InSegment c k x) (hk : k < c.noSegs) :
    x < c.noSegs * c.segsize := by
  have : (k + 1) * c.segsize ≤ c.noSegs * c.segsize := Nat.mul_le_mul_right _ hk
  rw [Nat.add_mul, Nat.one_mul] at this
  exact lt_of_lt_of_le h.2 this

/-- The first copy is in its segment. -/
theorem First.copyFits (h1 : First c k1 (Sb.zero os) s1) (hm : Marked k1 k2 s')
    (hofs : s'.sbOfs1 = s1.sbOfs1) : CopyFits c s' s'.sbOfs1 := by
  intro x hx hlt
  have hle := secsize_le c
  rw [hofs, h1.sbOfs.1] at hx hlt
  have hin : InSegment c k1 x := ⟨hx, by omega⟩
  exact ⟨lt_of_inSegment hin h1.lt, by rw [div_segsize hin]; exact (hm.entry k1).2 (Or.inl rfl)⟩

/-- On flash the second copy begins four kilobytes before the end of its segment. -/
theorem Scanned.copyFits_iff (h1 : k1 ≤ k2) (hm : Marked k1 k2 s') (h : Scanned c k2 s1 s') :
    CopyFits c s' s'.sbOfs2 ↔ c.writesize ≤ 0x1000 := by
  have hS := c.two_blocks_le
  have hsec := secsize_eq c
  have hofs : s'.sbOfs2 = k2 * c.segsize + (c.segsize - 0x1000) := by
    obtain ⟨fails, -, hs'⟩ := h.same
    rw [hs']
    dsimp only
    rw [Nat.add_mul, Nat.one_mul]
    omega
  constructor
  · intro hfits
    by_contra hbig
    -- the first byte of the next segment would be in the copy
    have hin : InSegment c (k2 + 1) ((k2 + 1) * c.segsize) :=
      ⟨Nat.le_refl _, Nat.lt_add_of_pos_right c.segsize_pos⟩
    have hx := hfits ((k2 + 1) * c.segsize) (by rw [hofs, Nat.add_mul]; omega)
      (by rw [hofs, Nat.add_mul]; omega)
    rw [div_segsize hin] at hx
    rcases (hm.entry _).1 hx.2 with h | h <;> omega
  · intro hsmall x hx hlt
    rw [hofs] at hx hlt
    have hin : InSegment c k2 x := ⟨by omega, by omega⟩
    exact ⟨lt_of_inSegment hin h.lt, by rw [div_segsize hin]; exact (hm.entry k2).2 (Or.inr rfl)⟩

/-- On a block device it begins four kilobytes before the last segment. -/
theorem bdev_copyFits_iff (hm : Marked k1 (c.noSegs - 1) s') (hk : k1 < c.noSegs) (hofs : s'.sbOfs2 =
    ((c.noSegs - 1) * c.segsize + (2 ^ 64 - 0x1000)) % 2 ^ 64) :
    CopyFits c s' s'.sbOfs2 ↔ 2 ≤ c.noSegs ∧ .erase (c.noSegs - 2) true ∈ s'.trace := by
  have hS := c.two_blocks_le
  have hsecle := secsize_le c
  have hsec := secsize_eq c
  have hbound : c.noSegs * c.segsize ≤ 2 ^ 32 * 2 ^ 30 :=
    Nat.mul_le_mul (le_of_lt c.noSegs_lt) c.segsize_le
  by_cases htwo : 2 ≤ c.noSegs
  · obtain ⟨n, hn⟩ : ∃ n, c.noSegs = n + 2 := ⟨c.noSegs - 2, by omega⟩
    have hofs' : s'.sbOfs2 = n * c.segsize + (c.segsize - 0x1000) := by
      rw [hn, Nat.add_mul] at hbound
      rw [hofs, hn, show n + 2 - 1 = n + 1 by omega, Nat.add_mul, Nat.one_mul]
      omega
    rw [hm.erased, hn, show n + 2 - 2 = n by omega]
    constructor
    · intro hfits
      refine ⟨by omega, ?_⟩
      have hin : InSegment c n s'.sbOfs2 := by
        rw [hofs']
        exact inSegment_add (by omega)
      have hx := (hfits s'.sbOfs2 (Nat.le_refl _) (by omega)).2
      rw [div_segsize hin] at hx
      rcases (hm.entry _).1 hx with h | h <;> omega
    · rintro ⟨-, hk1⟩ x hx hlt
      rw [hofs'] at hx hlt
      by_cases hend : x < (n + 1) * c.segsize
      · have hin : InSegment c n x := ⟨by omega, by rw [Nat.add_mul, Nat.one_mul] at hend; exact hend⟩
        exact ⟨lt_of_inSegment hin (by omega), by
          rw [div_segsize hin]
          exact (hm.entry n).2 (Or.inl hk1)⟩
      · have hin : InSegment c (n + 1) x := by
          refine ⟨not_lt.1 hend, ?_⟩
          rw [Nat.add_mul, Nat.one_mul]
          omega
        exact ⟨lt_of_inSegment hin (by omega), by
          rw [div_segsize hin]
          exact (hm.entry _).2 (Or.inr (by omega))⟩
  · refine iff_of_false (fun hfits => ?_) fun h => htwo h.1
    obtain hn : c.noSegs = 1 := by omega
    have hx := (hfits s'.sbOfs2 (Nat.le_refl _) (by omega)).1
    rw [hofs, hn] at hx
    have := c.segsize_le
    simp only [Nat.sub_self, Nat.zero_mul] at hx
    omega

/-- Both copies are in the segments that are reserved for them just when the device is flash with
pages of at most four kilobytes, or a block device whose last segment but one is the first that
could be erased. -/
theorem super_copies_fit_iff (c : Cfg) (os : List Outcome) (s : Sb)
    (h : prepareSb c (Sb.zero os) = .ok 0 s) :
    (CopyFits c s s.sbOfs1 ∧ CopyFits c s s.sbOfs2) ↔ PlacesSuper c s := by
  obtain ⟨-, k1, k2, s1, h1, h2⟩ := ((prepareSb_spec rfl).of_ok h).resolve_right fun h => h.1 rfl
  have hm := h2.marked h1
  have hfirst : s.sbOfs1 = s1.sbOfs1 := by
    cases h2 with
    | bdev _ _ _ h => rw [h]
    | mtd _ h =>
      obtain ⟨fails, -, hs'⟩ := h.same
      rw [hs']
  rw [and_iff_right (h1.copyFits hm hfirst)]
  have hle := h2.le h1
  unfold PlacesSuper
  cases h2 with
  | bdev hkind hk _ h =>
    subst hk
    rw [hkind]
    exact bdev_copyFits_iff hm h1.lt (by rw [h])
  | mtd hkind h =>
    rw [hkind]
    exact h.copyFits_iff hle hm

/-- Flash without bad segments. -/
theorem super_copies_fit_iff_flash :
    let s := after (prepareSb flash64) (Sb.zero (List.replicate 40 (.ok 8192)))
    CopyFits flash64 s s.sbOfs1 ∧ CopyFits flash64 s s.sbOfs2 := by
  intro s
  have h := ok_of_returnsZero (m := prepareSb flash64)
    (s := Sb.zero (List.replicate 40 (.ok 8192))) (by decide +kernel)
  refine (super_copies_fit_iff flash64 _ s h).2 ?_
  show flash64.writesize ≤ 0x1000
  decide

/-- On a block device of 300 segments the second superblock is in segment 298. -/
theorem second_copy_misplaced :
    ¬ ∀ (c : Cfg) (os : List Outcome) (s : Sb), prepareSb c (Sb.zero os) = .ok 0 s →
      CopyFits c s s.sbOfs1 ∧ CopyFits c s s.sbOfs2 := by
  intro h
  have hrun := ok_of_returnsZero (m := prepareSb disk300)
    (s := Sb.zero (List.replicate 40 (.ok 8192))) (by decide +kernel)
  have hx := ((h disk300 _ _ hrun).2 (299 * 8192 - 0x1000) (by decide +kernel) (by decide +kernel)).2
  exact absurd hx (by decide +kernel)

end Copies

end Logfs.Mkfs
