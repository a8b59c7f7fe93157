import Logfs.Mkfs.Stages

/-!
# Placing the superblocks

Both `prepare_sb` take a segment for the first superblock.  For the second one
`mtd_prepare_sb` looks for a segment it can erase, from the top of the device;
`bdev_prepare_sb` reserves the last segment without erasing it.
-/

namespace Logfs.Mkfs

open Relation (ReflTransGen)

/-- The entry of a segment with a superblock or a journal. -/
def reservedEntry : SegEntry := ⟨ecLevel 1 0, reserved⟩

/-! ## The first superblock -/

/-- The first superblock goes to segment `k`. -/
structure First (c : Cfg) (k : Nat) (s s' : Sb) : Prop where
  lt : k < c.noSegs
  chain : ∃ s1 s2, ReflTransGen (BadTurn c) s s1 ∧ Taken c k s1 s2 ∧ s' = { s2 with
    segmentEntry := Function.update s2.segmentEntry k reservedEntry
    sbOfs1 := k * c.segsize }

/-- An attempt to erase a segment, or `get_segment` returning it. -/
def Event.isTry : Event → Prop
  | .erase _ _ => True
  | .scan _ _ => True
  | .got _ _ => True
  | _ => False

/-- Nothing but erases was noted. -/
def OnlyTries (s s' : Sb) : Prop := ∃ new, s'.trace = new ++ s.trace ∧ ∀ e ∈ new, e.isTry

section First

variable {c : Cfg} {s s1 s' : Sb} {segno : Nat}

theorem OnlyTries.refl (s : Sb) : OnlyTries s s := ⟨[], rfl, by simp⟩

theorem OnlyTries.trans (h : OnlyTries s s1) (h1 : OnlyTries s1 s') : OnlyTries s s' := by
  obtain ⟨new, h, hn⟩ := h
  obtain ⟨new1, h1, hn1⟩ := h1
  refine ⟨new1 ++ new, by rw [h1, h, List.append_assoc], fun e he => ?_⟩
  exact (List.mem_append.1 he).elim (hn1 e) (hn e)

theorem OnlyTries.of_badTurns (h : ReflTransGen (BadTurn c) s s1) : OnlyTries s s1 := by
  induction h with
  | refl => exact .refl s
  | tail _ hb ih =>
    refine ih.trans ⟨[_], by rw [hb.same]; rfl, fun e he => ?_⟩
    rw [List.mem_singleton.1 he]
    trivial

theorem Taken.onlyTries (h : Taken c segno s s') : OnlyTries s s' := by
  refine ⟨[_, _], by rw [h.same]; rfl, fun e he => ?_⟩
  rcases List.mem_pair.1 he with rfl | rfl
  · trivial
  · trivial

theorem CutTurn.onlyTries (h : CutTurn c s s') : OnlyTries s s' := by
  rcases h.trace with h | h
  · exact ⟨[], h, by simp⟩
  · refine ⟨[_], h, fun e he => ?_⟩
    rw [List.mem_singleton.1 he]
    trivial

theorem First.onlyTries {k : Nat} (h : First c k s s') : OnlyTries s s' := by
  obtain ⟨s1, s2, hbad, ht, hs'⟩ := h.chain
  have := (OnlyTries.of_badTurns hbad).trans ht.onlyTries
  rw [hs']
  exact this

theorem prepareFirst_spec (c : Cfg) (s : Sb) :
    Wp (prepareFirst c) (fun _ s' => ∃ k, First c k s s') (fun _ s' => OnlyTries s s') s := by
  unfold prepareFirst
  refine (getSegment_spec c s).seq ?_ ?_
  · rintro k s2 ⟨s1, hbad, ht⟩
    have htries := (OnlyTries.of_badTurns hbad).trans ht.onlyTries
    unfold reserveEntry
    rw [wp_bind]
    refine wp_setEntry (fun hk => ?_) htries
    exact ⟨k, hk, s1, s2, hbad, ht, rfl⟩
  · rintro e s2 ⟨s1, hbad, rfl | h1⟩
    · exact .of_badTurns hbad
    · exact (OnlyTries.of_badTurns hbad).trans h1.onlyTries

end First

/-! ## The second superblock -/

/-- The second superblock goes to the end of segment `k`, which was erased after the segments
behind it could not be. -/
structure Scanned (c : Cfg) (k : Nat) (s s' : Sb) : Prop where
  lt : k < c.noSegs
  same : ∃ fails, (∀ e ∈ fails, ∃ i, e = .scan i false ∧ k < i) ∧ s' = { s with
    segmentEntry := Function.update s.segmentEntry k reservedEntry
    sbOfs2 := (k + 1) * c.segsize - 0x1000
    outcomes := s'.outcomes
    blits := s'.blits
    trace := .scan k true :: (fails ++ s.trace) }
  content : ∀ init x, s'.content init x =
    if k * c.segsize ≤ x ∧ x < k * c.segsize + c.segsize then 0xff else s.content init x

/-- No segment could be erased. -/
def ScanFailed (s s' : Sb) : Prop := OnlyTries s s' ∧ s'.sbOfs2 = s.sbOfs2

section Second

variable {c : Cfg}

/-- `mtd_erase` when it succeeds, fails, and when the run is cut off. -/
theorem mtdErase_cases (ofs size : Nat) (s : Sb) :
    Wp (mtdErase ofs size)
      (fun ret s' => s' = { s with outcomes := s'.outcomes, blits := s'.blits } ∧
        (ret = 0 ∧ (∀ init x, s'.content init x =
          if ofs ≤ x ∧ x < ofs + size then 0xff else s.content init x) ∨
        ret ≠ 0 ∧ s'.blits = s.blits))
      (fun _ s' => s' = s) s := by
  unfold Wp mtdErase
  rcases s.outcomes with _ | ⟨_ | _ | _, os⟩
  · rfl
  · exact ⟨rfl, Or.inl ⟨rfl, fun _ _ => rfl⟩⟩
  · exact ⟨rfl, Or.inr ⟨by decide, rfl⟩⟩
  · exact ⟨rfl, Or.inr ⟨by decide, rfl⟩⟩

/-- The scan finds a segment among the `n` from `segno` down, or passes all of them. -/
theorem mtdPrepareLoop_spec : ∀ (n segno : Nat) (s : Sb), n ≤ segno →
    Wp (mtdPrepareLoop c n segno)
      (fun r s' => r + n = segno ∧ ScanFailed s s' ∨
        segno < r + n ∧ r ≤ segno ∧ Scanned c r s s')
      (fun _ s' => OnlyTries s s') s := by
  intro n
  induction n with
  | zero => exact fun segno s _ => Or.inl ⟨rfl, .refl s, rfl⟩
  | succ n ih =>
    intro segno s hn
    unfold mtdPrepareLoop
    refine (mtdErase_cases _ _ s).seq ?_ fun _ s1 h1 => h1 ▸ .refl s
    rintro ret s1 ⟨hsame, hret⟩
    rw [wp_bind, wp_note, wp_ite]
    refine ⟨fun hne => ?_, fun heq => ?_⟩
    · -- the turn fails, and changes nothing
      have hbl : s1.blits = s.blits := (hret.resolve_left fun h => hne h.1).2
      have hone : OnlyTries s { s1 with trace := .scan segno (decide (ret = 0)) :: s1.trace } := by
        rw [hsame]
        exact ⟨[_], rfl, fun e he => by rw [List.mem_singleton.1 he]; trivial⟩
      refine (ih (segno - 1) _ (by omega)).mono ?_ fun _ _ h => hone.trans h
      rintro r s2 (⟨hr, hf, hofs⟩ | ⟨hlt, hle, h2⟩)
      · refine Or.inl ⟨by omega, hone.trans hf, ?_⟩
        rw [hofs, hsame]
      · obtain ⟨fails, hfails, hs2⟩ := h2.same
        refine Or.inr ⟨by omega, by omega, h2.lt, ⟨fails ++ [.scan segno false], ?_, ?_⟩, ?_⟩
        · intro e he
          rcases List.mem_append.1 he with he | he
          · exact hfails e he
          · exact ⟨segno, List.mem_singleton.1 he, by omega⟩
        · rw [hs2, hsame, decide_eq_false hne]
          simp
        · intro init x
          rw [h2.content]
          dsimp only [Sb.content]
          rw [hbl]
    · have heq : ret = 0 := not_not.1 heq
      have hcontent := (hret.resolve_right fun h => h.1 heq).2
      unfold reserveEntry
      rw [wp_bind]
      refine wp_setEntry (fun hseg => ?_) ?_
      · rw [wp_bind, wp_modify, wp_pure]
        refine Or.inr ⟨by omega, Nat.le_refl _, hseg, ⟨[], by simp, ?_⟩, hcontent⟩
        rw [hsame, heq]
        rfl
      · rw [hsame]
        exact ⟨[_], rfl, fun e he => by rw [List.mem_singleton.1 he]; trivial⟩

theorem Scanned.onlyTries {k : Nat} {s s' : Sb} (h : Scanned c k s s') : OnlyTries s s' := by
  obtain ⟨fails, hfails, hs'⟩ := h.same
  refine ⟨.scan k true :: fails, by rw [hs']; rfl, fun e he => ?_⟩
  rcases List.mem_cons.1 he with rfl | he
  · trivial
  · obtain ⟨i, rfl, -⟩ := hfails e he
    trivial

end Second

/-! ## Both -/

/-- The second superblock belongs to segment `k`. -/
inductive Second (c : Cfg) (k : Nat) (s s' : Sb) : Prop where
  | bdev (hkind : c.kind = .bdev) (hk : k = c.noSegs - 1) (hlt : k < c.noSegs)
    (h : s' = { s with
      segmentEntry := Function.update s.segmentEntry k reservedEntry
      sbOfs2 := (k * c.segsize + (2 ^ 64 - 0x1000)) % 2 ^ 64 })
  | mtd (hkind : c.kind = .mtd) (h : Scanned c k s s') (hlt : s.sbOfs1 < s'.sbOfs2)

/-- `prepare_sb` has returned zero: the superblocks belong to the segments `k1` and `k2`. -/
structure Prepared (c : Cfg) (k1 k2 : Nat) (s s' : Sb) : Prop where
  steps : ∃ s1 s2, First c k1 s s1 ∧ Second c k2 s1 s2 ∧
    s' = { s2 with trace := .prepared :: s2.trace }

section Both

variable {c : Cfg} {s s1 s' : Sb} {k k1 k2 : Nat}

theorem First.sbOfs (h : First c k s s') : s'.sbOfs1 = k * c.segsize ∧ s'.sbOfs2 = s.sbOfs2 := by
  obtain ⟨s1, s2, hbad, ht, rfl⟩ := h.chain
  refine ⟨rfl, ?_⟩
  have h1 : s1.sbOfs2 = s.sbOfs2 := by
    clear ht h
    induction hbad with
    | refl => rfl
    | tail _ hb ih => rw [hb.same]; exact ih
  rw [← h1]
  dsimp only
  rw [ht.same]

theorem Second.lt (h : Second c k s s') : k < c.noSegs := by
  cases h with
  | bdev _ _ hlt => exact hlt
  | mtd _ h => exact h.lt

theorem Second.onlyTries (h : Second c k s s') : OnlyTries s s' := by
  cases h with
  | bdev _ _ _ h => exact ⟨[], by rw [h]; rfl, by simp⟩
  | mtd _ h => exact h.onlyTries

/-- The second superblock is not in a segment before that of the first. -/
theorem Second.le (h1 : First c k1 s s1) (h2 : Second c k2 s1 s') : k1 ≤ k2 := by
  have hlt := h1.lt
  cases h2 with
  | bdev _ hk => omega
  | mtd _ h hofs =>
    obtain ⟨fails, -, hs'⟩ := h.same
    rw [h1.sbOfs.1, hs'] at hofs
    dsimp only at hofs
    by_contra hle
    have : (k2 + 1) * c.segsize ≤ k1 * c.segsize := Nat.mul_le_mul_right _ (by omega)
    omega

theorem prepareSb_spec (h2 : s.sbOfs2 = 0) :
    Wp (prepareSb c)
      (fun ret s' => (ret = 0 ∧ ∃ k1 k2 s1, First c k1 s s1 ∧ Second c k2 s1 s') ∨
        ret ≠ 0 ∧ OnlyTries s s')
      (fun _ s' => OnlyTries s s') s := by
  unfold prepareSb
  cases hkind : c.kind with
  | bdev =>
    unfold bdevPrepareSb
    refine (prepareFirst_spec c s).bind ?_
    rintro - s1 ⟨k, hk⟩
    unfold reserveEntry
    dsimp only
    rw [wp_bind]
    refine wp_setEntry (fun hlt => ?_) hk.onlyTries
    rw [wp_bind, wp_modify, wp_pure]
    exact Or.inl ⟨rfl, k, c.noSegs - 1, s1, hk, .bdev hkind rfl hlt rfl⟩
  | mtd =>
    unfold mtdPrepareSb
    refine (prepareFirst_spec c s).bind ?_
    rintro - s1 ⟨k, hk⟩
    have hlt := hk.lt
    refine (mtdPrepareLoop_spec _ _ s1 ?_).seq ?_ fun _ _ h => hk.onlyTries.trans h
    · split_ifs <;> omega
    rintro r s2 hr
    rw [wp_bind, wp_get, wp_ite]
    constructor
    · intro _
      refine Or.inr ⟨by decide, hk.onlyTries.trans ?_⟩
      rcases hr with ⟨-, h, -⟩ | ⟨-, -, h⟩
      · exact h
      · exact h.onlyTries
    · intro hgood
      rw [not_or, not_le] at hgood
      rcases hr with ⟨hpass, h, hofs⟩ | ⟨-, -, h⟩
      · -- nothing was found, so the offset is still zero
        rw [hofs, hk.sbOfs.2, h2] at hgood
        omega
      · refine Or.inl ⟨rfl, k, r, s1, hk, .mtd hkind h ?_⟩
        obtain ⟨fails, -, hs2⟩ := h.same
        have h1 := hgood.2
        rw [hs2] at h1 ⊢
        exact h1

theorem mkfsPrepare_spec (h2 : s.sbOfs2 = 0) :
    Wp (mkfsPrepare c) (fun _ s' => ∃ k1 k2, Prepared c k1 k2 s s') (fun _ s' => OnlyTries s s')
      s := by
  unfold mkfsPrepare orFail
  rw [wp_bind]
  refine (prepareSb_spec h2).seq ?_ fun _ _ h => h
  rintro ret s1 (⟨rfl, k1, k2, s0, h1, hs⟩ | ⟨hne, h⟩)
  · rw [if_neg (by decide), wp_pure, wp_note]
    exact ⟨k1, k2, s0, s1, h1, hs, rfl⟩
  · rw [if_pos hne]
    exact h

end Both

end Logfs.Mkfs
