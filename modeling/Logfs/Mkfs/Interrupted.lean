import Logfs.Mkfs.Stale

/-!
# Between `prepare_sb` and `make_super`

A run that stops there has left no superblock in the two places, if `prepare_sb` has erased
the segment of the second one or none was there before.  `mtd_prepare_sb` erases the segment;
`bdev_prepare_sb` does not.
-/

namespace Logfs.Mkfs

open Relation (ReflTransGen)

/-! ## The states -/

/-- A state from the return of `prepare_sb` in `s1` to the call of `make_super`.  A run is cut off
where the answers of the device end. -/
inductive BeforeSuper (c : Cfg) (s1 : Sb) : Sb → Prop
  | prepared : BeforeSuper c s1 s1
  | store : BeforeSuper c s1 (after (mkfsStore c) s1)
  | journal {s2 : Sb} (h : mkfsStore c s1 = .ok () s2) :
    BeforeSuper c s1 (after (makeJournal c) s2)

/-- Segment `k` has been erased. -/
def Event.erases (k : Nat) : Event → Bool
  | .erase i ok => ok && i == k
  | .scan i ok => ok && i == k
  | _ => false

/-! ## What `get_segment` erases -/

/-- How many of `size` bytes a write has brought to the device when it ends, `done` of them
before these answers. -/
def arrived (size : Nat) : List Outcome → Nat → Nat
  | [], done => done
  | o :: os, done =>
    if size ≤ done then done
    else match o with
      | .eintr => arrived size os done
      | .error => done
      | .ok n => arrived size os (done + min n (size - done))

/-- Byte `r` of the segment `k` behind the counter is erased by `get_segment` on a block device: with
these answers the erases before that of the segment fail, and that one gets as far. -/
def ErasesByte (size r : Nat) : Nat → List Outcome → Prop
  | 0, os => r < arrived size os 0
  | k + 1, os =>
    (safePwriteLoop eraseBuf size 0 os 0 []).1 = some (-1) ∧
      ErasesByte size r k (safePwriteLoop eraseBuf size 0 os 0 []).2.1

section Erase

variable {c : Cfg} {r size ofs : Nat} {s s1 s' : Sb}

theorem content_congr (h : s'.blits = s.blits) (init : Buf) (x : Nat) :
    s'.content init x = s.content init x := by
  unfold Sb.content
  rw [h]

instance decidableErasesByte (size r : Nat) : ∀ k os, Decidable (ErasesByte size r k os)
  | 0, os => inferInstanceAs (Decidable (r < arrived size os 0))
  | k + 1, os =>
    have := decidableErasesByte size r k (safePwriteLoop eraseBuf size 0 os 0 []).2.1
    inferInstanceAs (Decidable (_ ∧ _))

theorem ErasesByte.mono {r' : Nat} (h : r' ≤ r) : ∀ {k os}, ErasesByte size r k os →
    ErasesByte size r' k os
  | 0, _, he => lt_of_le_of_lt h he
  | _ + 1, _, he => ⟨he.1, he.2.mono h⟩

/-- How a write ends depends on the answers only, and so does what is left of them. -/
theorem safePwriteLoop_answers (buf buf' : Buf) (size ofs ofs' : Nat) : ∀ (os : List Outcome)
    (done : Nat) (bl bl' : List Blit),
    (safePwriteLoop buf size ofs os done bl).1 = (safePwriteLoop buf' size ofs' os done bl').1 ∧
      (safePwriteLoop buf size ofs os done bl).2.1 =
        (safePwriteLoop buf' size ofs' os done bl').2.1 := by
  intro os
  induction os with
  | nil => exact fun _ _ _ => ⟨rfl, rfl⟩
  | cons o os ih =>
    intro done bl bl'
    unfold safePwriteLoop
    split_ifs
    · exact ⟨rfl, rfl⟩
    · cases o with
      | eintr => exact ih done bl bl'
      | error => exact ⟨rfl, rfl⟩
      | ok n => exact ih _ _ _

theorem safePwriteLoop_arrived (buf : Buf) (size ofs : Nat) : ∀ (os : List Outcome) (done : Nat)
    (bl : List Blit), done ≤ size → done ≤ arrived size os done ∧ arrived size os done ≤ size ∧
      ((safePwriteLoop buf size ofs os done bl).1 = some 0 → arrived size os done = size) ∧
      ∀ init x, content init (safePwriteLoop buf size ofs os done bl).2.2 x =
        if ofs + done ≤ x ∧ x < ofs + arrived size os done then buf (x - ofs)
        else content init bl x := by
  intro os
  induction os with
  | nil =>
    intro done bl hd
    refine ⟨Nat.le_refl _, hd, fun h => ?_, fun init x => ?_⟩
    · simp only [safePwriteLoop] at h
      split_ifs at h with hfull
      exact Nat.le_antisymm hd hfull
    · rw [if_neg (by unfold arrived; omega)]
      rfl
  | cons o os ih =>
    intro done bl hd
    unfold safePwriteLoop arrived
    split_ifs with hfull
    · exact ⟨Nat.le_refl _, hd, fun _ => Nat.le_antisymm hd hfull,
        fun init x => by rw [if_neg (by omega)]⟩
    · cases o with
      | eintr => exact ih done bl hd
      | error =>
        refine ⟨Nat.le_refl _, hd, fun h => ?_, fun init x => ?_⟩
        · cases h
        · dsimp only
          rw [if_neg (by omega)]
      | ok m =>
        obtain ⟨hle, hsize, hzero, hc⟩ := ih (done + min m (size - done))
          (⟨ofs + done, min m (size - done), fun i => buf (done + i)⟩ :: bl) (by omega)
        refine ⟨le_trans (Nat.le_add_right _ _) hle, hsize, hzero, fun init x => ?_⟩
        dsimp only at hc ⊢
        rw [hc, content]
        dsimp only
        -- the bytes of this turn and those of the later ones are adjacent
        by_cases h1 : ofs + (done + min m (size - done)) ≤ x ∧
            x < ofs + arrived size os (done + min m (size - done))
        · rw [if_pos h1, if_pos (by omega)]
        · rw [if_neg h1]
          by_cases h2 : ofs + done ≤ x ∧ x < ofs + done + min m (size - done)
          · rw [if_pos h2, if_pos (by omega)]
            congr 1
            omega
          · rw [if_neg h2, if_neg (by omega)]

/-- An erase on a block device: what of it arrives, and whether it succeeds. -/
structure BdevErased (ofs size : Nat) (s : Sb) (r : Int) (s' : Sb) : Prop where
  same : s' = { s with outcomes := s'.outcomes, blits := s'.blits }
  outcomes : s'.outcomes = (safePwriteLoop eraseBuf size 0 s.outcomes 0 []).2.1
  failed : r ≠ 0 → (safePwriteLoop eraseBuf size 0 s.outcomes 0 []).1 = some (-1)
  done : r = 0 → (safePwriteLoop eraseBuf size 0 s.outcomes 0 []).1 = some 0
  content : ∀ init x, s'.content init x =
    if ofs ≤ x ∧ x < ofs + arrived size s.outcomes 0 then 0xff else s.content init x

theorem bdevErase_erased (s : Sb) (hofs : ofs < 2 ^ 63) :
    Wp (bdevErase ofs size) (fun r s' => BdevErased ofs size s r s') (fun _ _ => True) s := by
  unfold bdevErase bdevWrite
  rw [wp_bind]
  unfold Wp safePwrite
  rw [if_neg (by omega)]
  obtain ⟨hans, hleft⟩ :=
    safePwriteLoop_answers eraseBuf eraseBuf size ofs 0 s.outcomes 0 s.blits []
  obtain ⟨-, -, -, hc⟩ :=
    safePwriteLoop_arrived eraseBuf size ofs s.outcomes 0 s.blits (Nat.zero_le _)
  obtain ⟨n, -, hret, -⟩ :=
    safePwriteLoop_spec eraseBuf ofs s.outcomes 0 s.blits (Nat.zero_le size)
  rcases hl : safePwriteLoop eraseBuf size ofs s.outcomes 0 s.blits with ⟨_ | ret, os, bl⟩
  · trivial
  · rw [hl] at hans hleft hc hret
    have hcontent : ∀ init x, content init bl x =
        if ofs ≤ x ∧ x < ofs + arrived size s.outcomes 0 then 0xff else s.content init x := hc
    rcases hret ret rfl with ⟨rfl, -⟩ | rfl
    · exact ⟨rfl, hleft, fun h => absurd rfl h, fun _ => hans.symm, hcontent⟩
    · exact ⟨rfl, hleft, fun _ => hans.symm, fun h => absurd h (by decide), hcontent⟩

/-- What `get_segment` has erased on a block device when it returns `segno`. -/
structure ErasedUpTo (c : Cfg) (segno : Nat) (s s' : Sb) : Prop where
  le : s.lastseg ≤ segno
  last : ∀ r k, ErasesByte c.segsize r k s.outcomes → s.lastseg + k ≤ segno
  below : ∀ k < s.lastseg, ∀ init r, r < c.segsize →
    s'.content init (k * c.segsize + r) = s.content init (k * c.segsize + r)
  erased : ∀ k init r, r < c.segsize → ErasesByte c.segsize r k s.outcomes →
    s'.content init ((s.lastseg + k) * c.segsize + r) = 0xff
  kept : ∀ k init r, r < c.segsize → ¬ ErasesByte c.segsize r k s.outcomes →
    s'.content init ((s.lastseg + k) * c.segsize + r) =
      s.content init ((s.lastseg + k) * c.segsize + r)

/-- The segments after an erase. -/
theorem BdevErased.segment {i : Nat} {ret : Int}
    (h : BdevErased (i * c.segsize) c.segsize s ret s1) (k : Nat) (init : Buf) (hr : r < c.segsize) :
    s1.content init (k * c.segsize + r) = if k = i ∧ r < arrived c.segsize s.outcomes 0 then 0xff
      else s.content init (k * c.segsize + r) := by
  have hlen := (safePwriteLoop_arrived eraseBuf c.segsize 0 s.outcomes 0 []
    (Nat.zero_le _)).2.1
  rw [h.content]
  simp only [segment_iff hr hlen]

/-- An erase that fails comes before the others. -/
theorem ErasedUpTo.failed {segno : Nat} {s2 : Sb} {ret : Int} (hret : ret ≠ 0)
    (h : BdevErased (s.lastseg * c.segsize) c.segsize s ret s1)
    (hout : s2.outcomes = s1.outcomes) (hblits : s2.blits = s1.blits)
    (hlast : s2.lastseg = s.lastseg + 1) (h2 : ErasedUpTo c segno s2 s') :
    ErasedUpTo c segno s s' := by
  have hfirst := h.failed hret
  have hc : ∀ k init r, r < c.segsize → s2.content init (k * c.segsize + r) =
      if k = s.lastseg ∧ r < arrived c.segsize s.outcomes 0 then 0xff
      else s.content init (k * c.segsize + r) := fun k init r hr => by
    rw [content_congr hblits]
    exact h.segment k init hr
  have hle := h2.le
  have hnext : ∀ k, s.lastseg + (k + 1) = s2.lastseg + k := fun k => by omega
  have hbytes : ∀ {r k}, ErasesByte c.segsize r (k + 1) s.outcomes ↔
      ErasesByte c.segsize r k s2.outcomes := fun {r k} => by
    rw [hout, h.outcomes]
    exact and_iff_right hfirst
  refine ⟨by omega, fun r k hk => ?_, fun k hk init r hr => ?_, fun k init r hr hk => ?_,
    fun k init r hr hk => ?_⟩
  · cases k with
    | zero => omega
    | succ k =>
      rw [hnext]
      exact h2.last r k (hbytes.1 hk)
  · rw [h2.below k (by omega) init r hr, hc k init r hr, if_neg (by omega)]
  · cases k with
    | zero =>
      rw [Nat.add_zero, h2.below _ (by omega) init r hr, hc _ init r hr]
      exact if_pos ⟨rfl, hk⟩
    | succ k =>
      rw [hnext]
      exact h2.erased k init r hr (hbytes.1 hk)
  · cases k with
    | zero =>
      rw [Nat.add_zero, h2.below _ (by omega) init r hr, hc _ init r hr]
      exact if_neg fun h => hk h.2
    | succ k =>
      rw [hnext, h2.kept k init r hr (mt hbytes.2 hk), hc _ init r hr, if_neg (by omega)]

/-- The erase that succeeds is the last one. -/
theorem ErasedUpTo.succeeded
    (h : BdevErased (s.lastseg * c.segsize) c.segsize s 0 s1) (hblits : s'.blits = s1.blits) :
    ErasedUpTo c s.lastseg s s' := by
  have hdone := h.done rfl
  have hno : ∀ r k, ¬ ErasesByte c.segsize r (k + 1) s.outcomes := fun r k hk => by
    have hfail := hk.1
    rw [hdone] at hfail
    cases hfail
  have hc : ∀ k init r, r < c.segsize → s'.content init (k * c.segsize + r) =
      if k = s.lastseg ∧ r < arrived c.segsize s.outcomes 0 then 0xff
      else s.content init (k * c.segsize + r) := fun k init r hr => by
    rw [content_congr hblits]
    exact h.segment k init hr
  refine ⟨Nat.le_refl _, fun r k hk => ?_, fun k hk init r hr => ?_, fun k init r hr hk => ?_,
    fun k init r hr hk => ?_⟩
  · cases k with
    | zero => exact Nat.le_refl _
    | succ k => exact absurd hk (hno r k)
  · rw [hc k init r hr, if_neg (by omega)]
  · cases k with
    | zero =>
      rw [hc _ init r hr]
      exact if_pos ⟨rfl, hk⟩
    | succ k => exact absurd hk (hno r k)
  · rw [hc _ init r hr]
    cases k with
    | zero => exact if_neg fun h => hk h.2
    | succ k => exact if_neg (by omega)

theorem getSegmentLoop_erased (hkind : c.kind = .bdev) : ∀ (turns : Nat) (s : Sb),
    s.lastseg ≤ c.noSegs →
    Wp (getSegmentLoop c turns) (fun segno s' => ErasedUpTo c segno s s') (fun _ _ => True) s := by
  intro turns
  induction turns with
  | zero => exact fun _ _ => trivial
  | succ turns ih =>
    intro s hs
    have hlt := c.noSegs_lt
    have hofs : s.lastseg * c.segsize < 2 ^ 63 := by
      calc s.lastseg * c.segsize ≤ 2 ^ 32 * 2 ^ 30 := Nat.mul_le_mul (by omega) c.segsize_le
        _ < 2 ^ 63 := by decide
    unfold getSegmentLoop devErase
    rw [hkind, wp_bind, wp_get, wp_bind, wp_set, wp_ite]
    refine ⟨fun _ => trivial, fun _ => ?_⟩
    apply (bdevErase_erased _ hofs).bind
    intro ret s1 h1
    have hsame := h1.same
    have h1 : BdevErased (s.lastseg * c.segsize) c.segsize s ret
        { s1 with lastseg := s.lastseg } :=
      ⟨by rw [hsame], h1.outcomes, h1.failed, h1.done, h1.content⟩
    rw [wp_bind, wp_note, wp_ite]
    refine ⟨fun hret => ?_, fun hret => ?_⟩
    · rw [wp_bind]
      apply wp_setEntry _ trivial
      intro hseg
      have hmod : (s.lastseg + 1) % 2 ^ 32 = s.lastseg + 1 := Nat.mod_eq_of_lt (by omega)
      have hlast : s1.lastseg = s.lastseg + 1 := by
        rw [hsame]
        exact hmod
      apply (ih _ (by dsimp only; omega)).imp
      intro segno s2 h2
      apply ErasedUpTo.failed hret h1 _ _ _ h2
      · rfl
      · rfl
      · exact hlast
    · rw [wp_bind, wp_note, wp_pure]
      obtain rfl := not_not.1 hret
      exact .succeeded h1 rfl

/-- What `prepare_sb` has erased on a block device. -/
theorem mkfsPrepare_erased (hkind : c.kind = .bdev) (os : List Outcome) :
    Wp (mkfsPrepare c) (fun _ s' => ∃ segno < c.noSegs, ErasedUpTo c segno (Sb.zero os) s')
      (fun _ _ => True) (Sb.zero os) := by
  unfold mkfsPrepare orFail prepareSb bdevPrepareSb prepareFirst getSegment reserveEntry
  rw [hkind, wp_bind, wp_bind, wp_bind, wp_bind, wp_bind, wp_get]
  apply (getSegmentLoop_erased hkind _ (Sb.zero os) (Nat.zero_le _)).imp
  intro segno s1 h1
  rw [wp_bind]
  apply wp_setEntry _ trivial
  intro hseg
  rw [wp_modify]
  dsimp only
  rw [wp_bind]
  apply wp_setEntry _ trivial
  intro _
  rw [wp_bind, wp_modify, wp_pure, if_neg (by decide), wp_pure, wp_note]
  exact ⟨segno, hseg, h1.le, h1.last, h1.below, h1.erased, h1.kept⟩

end Erase

/-! ## Where the second superblock was -/

/-- Where `bdev_prepare_sb` puts the second superblock. -/
def Cfg.bdevSecond (c : Cfg) : Nat := ((c.noSegs - 1) * c.segsize + (2 ^ 64 - 0x1000)) % 2 ^ 64

/-- On a block device there was no superblock in the second place, or the erases of the segments
before that place fail and the one of its segment gets beyond the first byte of the magic number. -/
def SecondGone (c : Cfg) (os : List Outcome) (init : Buf) : Prop :=
  c.kind = .mtd ∨ ¬ SuperAt c init c.bdevSecond ∨
    2 ≤ c.noSegs ∧ ErasesByte c.segsize c.tail (c.noSegs - 2) os

/-! ## After `prepare_sb` -/

/-- What has been erased is. -/
def Wiped (c : Cfg) (s : Sb) : Prop := ∀ k, s.trace.any (Event.erases k) = true →
  ∀ init r, r < c.segsize → s.content init (k * c.segsize + r) = 0xff

section Prepare

variable {c : Cfg} {init : Buf} {i k k1 k2 n : Nat} {s0 s s1 s2 s' : Sb} {os : List Outcome}

/-- An attempt to erase segment `i`, of which `n` bytes are erased, and all when it succeeds. -/
structure Erasing (c : Cfg) (i n : Nat) (s s' : Sb) : Prop where
  le : n ≤ c.segsize
  content : ∀ init x, s'.content init x =
    if i * c.segsize ≤ x ∧ x < i * c.segsize + n then 0xff else s.content init x
  erases : ∀ k, s'.trace.any (Event.erases k) = true →
    s.trace.any (Event.erases k) = true ∨ k = i ∧ n = c.segsize

theorem Erasing.wiped (h : Erasing c i n s s') (hw : Wiped c s) : Wiped c s' := by
  intro k hk init r hr
  rw [h.content]
  split_ifs with hin
  · rfl
  · rcases h.erases k hk with hk | ⟨rfl, rfl⟩
    · exact hw k hk init r hr
    · exact absurd ((segment_iff hr (Nat.le_refl _)).2 ⟨rfl, hr⟩) hin

theorem BadTurn.erasing (h : BadTurn c s s') : ∃ n, Erasing c s.lastseg n s s' := by
  obtain ⟨n, hn, hcontent⟩ := h.content
  refine ⟨n, hn, hcontent, fun k hk => Or.inl ?_⟩
  rw [h.same] at hk
  simpa [Event.erases] using hk

theorem Taken.erasing (h : Taken c i s s') : Erasing c i c.segsize s s' := by
  refine ⟨Nat.le_refl _, h.content, fun k hk => ?_⟩
  rw [h.same] at hk
  have : i = k ∨ s.trace.any (Event.erases k) = true := by simpa [Event.erases] using hk
  exact this.elim (fun h => Or.inr ⟨h.symm, rfl⟩) Or.inl

theorem Scanned.erasing (h : Scanned c i s s') : Erasing c i c.segsize s s' := by
  obtain ⟨fails, hfails, hs'⟩ := h.same
  refine ⟨Nat.le_refl _, h.content, fun k hk => ?_⟩
  rw [hs'] at hk
  obtain ⟨e, he, hek⟩ := List.any_eq_true.1 hk
  rcases List.mem_cons.1 he with rfl | he
  · exact Or.inr ⟨(beq_iff_eq.1 (by simpa [Event.erases] using hek)).symm, rfl⟩
  rcases List.mem_append.1 he with he | he
  · obtain ⟨j, rfl, -⟩ := hfails e he
    simp [Event.erases] at hek
  · exact Or.inl (List.any_eq_true.2 ⟨e, he, hek⟩)

/-- What holds of erases is preserved up to the return of `prepare_sb`. -/
theorem Prepared.induct {P : Sb → Prop} (h : Prepared c k1 k2 s s')
    (hP : ∀ i n s s', Erasing c i n s s' → P s → P s')
    (hsame : ∀ s s', s'.blits = s.blits →
      (∀ k, s'.trace.any (Event.erases k) = s.trace.any (Event.erases k)) → P s → P s')
    (hs : P s) : P s' := by
  obtain ⟨s1, s2, h1, h2, rfl⟩ := h.steps
  obtain ⟨s3, s4, hbad, ht, rfl⟩ := h1.chain
  have h3 : P s3 := by
    clear h1 h2 ht
    induction hbad with
    | refl => exact hs
    | tail _ hb ih =>
      obtain ⟨n, hn⟩ := hb.erasing
      exact hP _ _ _ _ hn ih
  have h4 := hP _ _ _ _ ht.erasing h3
  have h5 := hsame s4 { s4 with
    segmentEntry := Function.update s4.segmentEntry k1 reservedEntry
    sbOfs1 := k1 * c.segsize } rfl (fun _ => rfl) h4
  have h6 : P s2 := by
    cases h2 with
    | bdev _ _ _ h => exact hsame _ _ (by rw [h]) (fun _ => by rw [h]) h5
    | mtd _ h => exact hP _ _ _ _ h.erasing h5
  exact hsame s2 _ rfl (fun _ => rfl) h6

theorem Prepared.wiped (h : Prepared c k1 k2 (Sb.zero os) s') : Wiped c s' := by
  refine h.induct (P := Wiped c) (fun _ _ _ _ => Erasing.wiped) (fun s s' hb he hw k hk => ?_) ?_
  · intro init r hr
    rw [content_congr hb]
    exact hw k (he k ▸ hk) init r hr
  · intro k hk
    cases hk

/-- An erase begins at the beginning of the segment. -/
theorem Erasing.tailUnused (h : Erasing c i n s s') (hu : TailUnused c init k s) :
    TailUnused c init k s' := by
  have hlt := tail_lt c
  rcases hu with hu | ⟨hno, heq⟩
  · left
    rw [h.content]
    split_ifs
    · exact Or.inr rfl
    · exact hu
  · by_cases hin : k = i ∧ c.tail < n
    · refine Or.inl (Or.inr ?_)
      rw [h.content, if_pos ((segment_iff (by omega) h.le).2 hin)]
    · refine Or.inr ⟨hno, fun r hr hrS => ?_⟩
      rw [h.content, if_neg, heq r hr hrS]
      rw [segment_iff hrS h.le]
      omega

theorem Prepared.tailUnused (h : Prepared c k1 k2 (Sb.zero os) s')
    (hno : ¬ SuperAt c init (k * c.segsize + (c.segsize - 0x1000))) : TailUnused c init k s' := by
  refine h.induct (P := TailUnused c init k) (fun _ _ _ _ => Erasing.tailUnused)
    (fun s s' hb _ hu => ?_) (Or.inr ⟨hno, fun _ _ _ => rfl⟩)
  unfold TailUnused
  simp only [content_congr hb]
  exact hu

/-- The first superblock belongs to a segment that has been erased. -/
theorem Prepared.headGone (h : Prepared c k1 k2 (Sb.zero os) s') (init : Buf) :
    s'.sbOfs1 = k1 * c.segsize ∧ HeadGone c init k1 s' := by
  have hw := h.wiped
  obtain ⟨s1, s2, h1, h2, rfl⟩ := h.steps
  have htwo := c.two_blocks_le
  have herase : s1.trace.any (Event.erases k1) = true := by
    obtain ⟨s3, s4, -, ht, rfl⟩ := h1.chain
    rw [ht.same]
    simp [Event.erases]
  have hofs : s2.sbOfs1 = s1.sbOfs1 := by
    cases h2 with
    | bdev _ _ _ h => rw [h]
    | mtd _ h =>
      obtain ⟨fails, -, hs⟩ := h.same
      rw [hs]
  refine ⟨hofs.trans h1.sbOfs.1, ?_⟩
  have hany : s2.trace.any (Event.erases k1) = true := by
    cases h2 with
    | bdev _ _ _ h =>
      rw [h]
      exact herase
    | mtd _ h =>
      obtain ⟨fails, -, hs⟩ := h.same
      rw [hs, List.any_cons, List.any_append, herase]
      simp
  unfold HeadGone
  rw [hw k1 hany init 28 (by omega)]
  decide

theorem pow_eq_mul (c : Cfg) : ∃ m, 2 ^ 64 = (m + 1) * c.segsize ∧ 0 < m := by
  obtain ⟨m, hm⟩ := c.segsize_dvd
  have hpos : 0 < m := Nat.pos_of_ne_zero fun h => by rw [h] at hm; omega
  refine ⟨m * 2 ^ 32 - 1, ?_, by omega⟩
  rw [Nat.sub_add_cancel (by omega), Nat.mul_right_comm, Nat.mul_comm m, ← hm]
  exact Nat.pow_add 2 32 32

/-- On a block device it is at the end of the segment before the last one, or behind the only
segment: the subtraction wraps around. -/
theorem Cfg.bdevSecond_eq (c : Cfg) (hpos : 0 < c.noSegs) :
    ∃ k, c.bdevSecond = k * c.segsize + (c.segsize - 0x1000) ∧
      (2 ≤ c.noSegs ∧ k = c.noSegs - 2 ∨ c.noSegs = 1 ∧ 1 ≤ k) := by
  have htwo := c.two_blocks_le
  unfold Cfg.bdevSecond
  by_cases hone : c.noSegs = 1
  · obtain ⟨m, hm, hm0⟩ := pow_eq_mul c
    refine ⟨m, ?_, Or.inr ⟨hone, hm0⟩⟩
    rw [Nat.add_mul, Nat.one_mul] at hm
    rw [hone, Nat.sub_self, Nat.zero_mul]
    omega
  · obtain ⟨n, hn⟩ : ∃ n, c.noSegs = n + 2 := ⟨c.noSegs - 2, by omega⟩
    have hle : (n + 1) * c.segsize ≤ 2 ^ 62 := by
      have := c.noSegs_lt
      calc (n + 1) * c.segsize ≤ 2 ^ 32 * 2 ^ 30 := Nat.mul_le_mul (by omega) c.segsize_le
        _ = 2 ^ 62 := by decide
    refine ⟨n, ?_, Or.inl (by omega)⟩
    rw [Nat.add_mul, Nat.one_mul] at hle
    rw [hn, show n + 2 - 1 = n + 1 by omega, Nat.add_mul, Nat.one_mul]
    omega

theorem Prepared.bdev_second (h : Prepared c k1 k2 (Sb.zero os) s') (hkind : c.kind = .bdev) :
    s'.sbOfs2 = c.bdevSecond := by
  obtain ⟨s1, s2, -, h2, rfl⟩ := h.steps
  cases h2 with
  | bdev _ hk _ h =>
    rw [h, hk]
    rfl
  | mtd hmtd =>
    rw [hkind] at hmtd
    cases hmtd

/-- On flash the second superblock is at the end of a segment that has been erased. -/
theorem Prepared.mtd_second (h : Prepared c k1 k2 (Sb.zero os) s') (hkind : c.kind = .mtd) :
    s'.sbOfs2 = k2 * c.segsize + (c.segsize - 0x1000) ∧
      s'.trace.any (Event.erases k2) = true := by
  obtain ⟨s1, s2, -, h2, rfl⟩ := h.steps
  have htwo := c.two_blocks_le
  cases h2 with
  | bdev hbdev =>
    rw [hkind] at hbdev
    cases hbdev
  | mtd _ h =>
    obtain ⟨fails, -, hs⟩ := h.same
    rw [hs]
    refine ⟨?_, by simp [Event.erases]⟩
    dsimp only
    rw [Nat.add_mul, Nat.one_mul]
    omega

end Prepare

/-! ## The journal -/

section Journal

variable {c : Cfg} {init : Buf} {k n q : Nat} {s s' : Sb} {j : Buf}

/-- A part of the buffer `j` is written to segment `q`. -/
def Writing (c : Cfg) (q n : Nat) (j : Buf) (s s' : Sb) : Prop :=
  n ≤ c.segsize ∧ ∀ init x, s'.content init x =
    if q * c.segsize ≤ x ∧ x < q * c.segsize + n then j (x - q * c.segsize) else s.content init x

theorem Writing.cases (h : Writing c q n j s s') (init : Buf) (k : Nat) {r : Nat} (hr : r < c.segsize) :
    k = q ∧ r < n ∧ s'.content init (k * c.segsize + r) = j r ∨
      ¬ (k = q ∧ r < n) ∧
        s'.content init (k * c.segsize + r) = s.content init (k * c.segsize + r) := by
  rw [h.2]
  split_ifs with hin
  · obtain ⟨rfl, hlt⟩ := (segment_iff hr h.1).1 hin
    exact Or.inl ⟨rfl, hlt, by rw [Nat.add_sub_cancel_left]⟩
  · exact Or.inr ⟨mt (segment_iff hr h.1).2 hin, rfl⟩

theorem HeadGone.writing (hg : HeadGone c init k s) (h : Writing c q n j s s')
    (hj : j 28 = 0) : HeadGone c init k s' := by
  have htwo := c.two_blocks_le
  unfold HeadGone
  rcases h.cases init k (r := 28) (by omega) with ⟨-, -, h⟩ | ⟨-, h⟩
  · rw [h, hj]
    decide
  · rw [h]
    exact hg

/-- The journal ends before the second superblock begins. -/
theorem TailGone.writing (hg : TailGone c init k s) (h : Writing c q n j s s')
    (hj : ∀ i, c.tail ≤ i → j i = 0) :
    ¬ SuperAt c (s'.content init) (k * c.segsize + (c.segsize - 0x1000)) := by
  have hlt := tail_lt c
  have hplain : ∀ r, c.tail ≤ r → r < c.segsize → Plain (s.content init (k * c.segsize + r)) →
      Plain (s'.content init (k * c.segsize + r)) := by
    intro r hr hrS hp
    rcases h.cases init k hrS with ⟨-, -, h⟩ | ⟨-, h⟩
    · rw [h]
      exact Or.inl (hj r hr)
    · rwa [h]
  rcases hg with hg | ⟨hu | ⟨hno, heq⟩, -⟩
  · exact TailGone.not_super (Or.inl (hplain _ hlt.1 hlt.2.1 hg))
  · exact TailUnused.not_super (Or.inl (hplain _ (Nat.le_refl _) (by omega) hu))
  · refine TailUnused.not_super ?_
    rcases h.cases init k (r := c.tail) (by omega) with ⟨-, -, ht⟩ | ⟨hout, -⟩
    · exact Or.inl (Or.inl (by rw [ht]; exact hj _ (Nat.le_refl _)))
    · refine Or.inr ⟨hno, fun r hr hrS => ?_⟩
      rcases h.cases init k hrS with ⟨rfl, hlt, -⟩ | ⟨-, h⟩
      · exact absurd ⟨rfl, by omega⟩ hout
      · rw [h, heq r hr hrS]

/-- What `make_journal` does to the device. -/
theorem makeJournal_writing (s : Sb) :
    Wp (makeJournal c)
      (fun _ s' => s'.sbOfs1 = s.sbOfs1 ∧ s'.sbOfs2 = s.sbOfs2 ∧
        ∃ q n j, Writing c q n j s s' ∧ j 28 = 0 ∧ ∀ i, c.tail ≤ i → j i = 0)
      (fun _ s' => s'.sbOfs1 = s.sbOfs1 ∧ s'.sbOfs2 = s.sbOfs2 ∧
        ∃ q n j, Writing c q n j s s' ∧ j 28 = 0 ∧ ∀ i, c.tail ≤ i → j i = 0) s := by
  have htwo := c.two_blocks_le
  -- the offset is that of a segment, also when the product is cut off
  obtain ⟨q, hq⟩ : ∃ q, s.journalSeg 0 * c.segsize % 2 ^ 32 = q * c.segsize := by
    have hdvd : c.segsize ∣ s.journalSeg 0 * c.segsize % 2 ^ 32 :=
      (Nat.dvd_mod_iff c.segsize_dvd).2 (Nat.dvd_mul_left _ _)
    obtain ⟨q, hq⟩ := hdvd
    exact ⟨q, by rw [hq, Nat.mul_comm]⟩
  have hzero : ∀ {j n0 n1 n2 n3}, Journaled c (fun _ _ => True) s j n0 n1 n2 n3 →
      j 28 = 0 ∧ ∀ i, c.tail ≤ i → j i = 0 := fun hj =>
    ⟨hj.head 28 (by decide) (by decide), fun i hi => hj.rest i (by
      unfold Cfg.tail at hi
      simp only [blocksize, blockshift, journalHeadersize]
      omega)⟩
  have hdid : ∀ {evs n j je s'}, n ≤ c.segsize →
      Did evs (journalWrite c s j).ofs n j (journalState s je) s' → Writing c q n j s s' := by
    intro evs n j je s' hn h
    refine ⟨hn, fun init x => ?_⟩
    rw [h.content, journalWrite_ofs, hq]
    rfl
  have hofs : ∀ {evs n j je s'} {o : Nat}, Did evs o n j (journalState s je) s' →
      s'.sbOfs1 = s.sbOfs1 ∧ s'.sbOfs2 = s.sbOfs2 := fun h => by
    rw [h.same]
    exact ⟨rfl, rfl⟩
  refine (makeJournal_spec (D := fun _ _ => True) fun _ _ _ => trivial).mono ?_ ?_
  · rintro err s' ⟨j, je, ⟨n0, n1, n2, n3, hj⟩, ⟨-, h⟩ | ⟨-, n, hn, h⟩⟩
    · exact ⟨(hofs h).1, (hofs h).2, q, _, j, hdid (Nat.le_refl _) h, hzero hj⟩
    · exact ⟨(hofs h).1, (hofs h).2, q, n, j, hdid hn h, hzero hj⟩
  · rintro e s' ⟨je, rfl | ⟨j, n, ⟨n0, n1, n2, n3, hj⟩, hn, h⟩⟩
    · refine ⟨rfl, rfl, 0, 0, fun _ => 0, ⟨Nat.zero_le _, fun init x => ?_⟩, rfl, fun _ _ => rfl⟩
      rw [if_neg (by omega)]
      rfl
    · exact ⟨(hofs h).1, (hofs h).2, q, n, j, hdid hn h, hzero hj⟩

end Journal

/-! ## The whole run -/

section Run

variable {c : Cfg} {init : Buf} {k k1 k2 : Nat} {s s1 s2 s' : Sb} {os : List Outcome}

/-- Superblocks keep their places. -/
def SamePlaces (s s' : Sb) : Prop := s'.sbOfs1 = s.sbOfs1 ∧ s'.sbOfs2 = s.sbOfs2

theorem Calm.samePlaces (h : Calm c s s') : SamePlaces s s' := by
  induction h with
  | refl => exact ⟨rfl, rfl⟩
  | tail _ hstep ih =>
    rcases hstep with h | h
    · exact ⟨h.sbOfs.1.trans ih.1, h.sbOfs.2.trans ih.2⟩
    · cases h with
      | mk _ _ h =>
        rw [h.same]
        exact ih

theorem Halt.samePlaces (h : Halt c s s') : SamePlaces s s' := by
  cases h with
  | here => exact ⟨rfl, rfl⟩
  | turn h => rw [h.same]; exact ⟨rfl, rfl⟩
  | taken _ h => rw [h.same]; exact ⟨rfl, rfl⟩
  | cut _ _ h => rw [h.same]; exact ⟨rfl, rfl⟩
  | wrote _ h => rw [h.same]; exact ⟨rfl, rfl⟩

theorem FailedWrite.samePlaces (h : FailedWrite c s s') : SamePlaces s s' := by
  cases h with
  | mk _ _ h => rw [h.same]; exact ⟨rfl, rfl⟩

theorem Blank.pointersFit (h : Blank c s) : PointersFit s := fun ino level bix b hb => by
  unfold inodeAt at hb
  rw [h.inoTree] at hb
  cases hb

theorem Blank.tame (h : Blank c s) (hs : Stores 2 s s') : Tame s' := by
  obtain ⟨new, hobj, hknown, hn⟩ := hs
  rw [h.quiet.objects, List.append_nil] at hobj
  exact ⟨fun o ho => hknown o (hobj ▸ ho), hobj ▸ hn⟩

/-- Neither place holds a superblock. -/
def Gone (c : Cfg) (init : Buf) (k1 k : Nat) (s : Sb) : Prop :=
  s.sbOfs1 = k1 * c.segsize ∧ s.sbOfs2 = k * c.segsize + (c.segsize - 0x1000) ∧
    HeadGone c init k1 s ∧ TailGone c init k s

theorem Gone.noSuperblocks (h : Gone c init k1 k s) : NoSuperblocks c init s := by
  obtain ⟨h1, h2, hhead, htail⟩ := h
  unfold NoSuperblocks
  rw [h1, h2]
  exact ⟨hhead.not_super, htail.not_super⟩

theorem Gone.calm (h : Gone c init k1 k s) (hf : Fillings c s) (hcalm : Calm c s s')
    (ht : Tame s') : Gone c init k1 k s' := by
  obtain ⟨h1, h2, hhead, htail⟩ := h
  have hp := hcalm.samePlaces
  exact ⟨hp.1.trans h1, hp.2.trans h2, gone_calm hf hcalm ht hhead htail⟩

theorem Gone.moved (h : Gone c init k1 k s) (hf : Fillings c s) (ht : Tame s)
    (hm : Moved c s s') (hp : SamePlaces s s') : Gone c init k1 k s' := by
  obtain ⟨h1, h2, hhead, htail⟩ := h
  exact ⟨hp.1.trans h1, hp.2.trans h2, hhead.moved hm fun l buf hw => (hw.tame hf ht).2,
    htail.moved hm fun l buf hw => (hw.tame hf ht).1⟩

/-- The object store leaves both places without a superblock, however it ends. -/
theorem mkfsStore_gone (hb : Blank c s) (h : Gone c init k1 k s) :
    Wp (mkfsStore c) (fun _ s' => Gone c init k1 k s') (fun _ s' => Gone c init k1 k s') s := by
  refine ((mkfsStore_spec hb.ready).and (mkfsStore_keeps c s hb.pointersFit)).mono ?_ ?_
  · rintro - s' ⟨hr, -, hs⟩
    exact h.calm hb.fillings hr.calm (hb.tame hs)
  · rintro e s' ⟨⟨s1, hcalm, hh⟩ | ⟨-, s1, hcalm, hf⟩, -, hs⟩
    · have ht1 := (hb.tame hs).before hh.continues
      exact (h.calm hb.fillings hcalm ht1).moved (hcalm.fillings hb.fillings) ht1 hh.moved
        hh.samePlaces
    · have ht1 := (hb.tame hs).before hf.onlyWrites.continues
      exact (h.calm hb.fillings hcalm ht1).moved (hcalm.fillings hb.fillings) ht1 hf.moved
        hf.samePlaces

theorem makeJournal_noSuperblocks (h : Gone c init k1 k s) :
    Wp (makeJournal c) (fun _ s' => NoSuperblocks c init s') (fun _ s' => NoSuperblocks c init s')
      s := by
  obtain ⟨h1, h2, hhead, htail⟩ := h
  have hend : ∀ s', s'.sbOfs1 = s.sbOfs1 ∧ s'.sbOfs2 = s.sbOfs2 ∧
      (∃ q n j, Writing c q n j s s' ∧ j 28 = 0 ∧ ∀ i, c.tail ≤ i → j i = 0) →
      NoSuperblocks c init s' := by
    rintro s' ⟨hp1, hp2, q, n, j, hw, hj, hrest⟩
    unfold NoSuperblocks
    rw [hp1, hp2, h1, h2]
    exact ⟨(hhead.writing hw hj).not_super, htail.writing hw hrest⟩
  exact (makeJournal_writing s).mono (fun _ => hend) fun _ => hend

/-- A place at the end of a segment that no area is in. -/
theorem Prepared.gone_of_unused {k : Nat} (h : Prepared c k1 k2 (Sb.zero os) s1)
    (hofs : s1.sbOfs2 = k * c.segsize + (c.segsize - 0x1000)) (hu : TailUnused c init k s1) :
    Gone c init k1 k s1 := by
  have hhead := h.headGone init
  refine ⟨hhead.1, hofs, hhead.2, Or.inr ⟨hu, fun l hl => ?_⟩⟩
  rw [h.table.2.2] at hl
  cases hl

/-- After `prepare_sb` both places are without a superblock. -/
theorem Prepared.gone (h : Prepared c k1 k2 (Sb.zero os) s1)
    (h1 : mkfsPrepare c (Sb.zero os) = .ok () s1) (hc : SecondGone c os init) :
    ∃ k, Gone c init k1 k s1 := by
  have hlt := tail_lt c
  rcases hc with hmtd | hc
  · obtain ⟨hofs, herased⟩ := h.mtd_second hmtd
    refine ⟨k2, h.gone_of_unused hofs (Or.inl (Or.inr ?_))⟩
    exact h.wiped k2 herased init c.tail (by omega)
  cases hkind : c.kind with
  | mtd =>
    obtain ⟨hofs, herased⟩ := h.mtd_second hkind
    refine ⟨k2, h.gone_of_unused hofs (Or.inl (Or.inr ?_))⟩
    exact h.wiped k2 herased init c.tail (by omega)
  | bdev =>
    have hofs := h.bdev_second hkind
    obtain ⟨segno, hseg, herased⟩ := (mkfsPrepare_erased hkind os).of_ok h1
    obtain ⟨k, hk, hwhere⟩ := c.bdevSecond_eq (by omega)
    rw [hk] at hofs hc
    refine ⟨k, h.gone_of_unused hofs ?_⟩
    rcases hc with hno | ⟨htwo, hbyte⟩
    · exact h.tailUnused hno
    · have hcontent := herased.erased (c.noSegs - 2) init c.tail (by omega) hbyte
      rw [show (Sb.zero os).lastseg + (c.noSegs - 2) = k by simp only [Sb.zero]; omega] at hcontent
      exact Or.inl (Or.inr hcontent)

/-- Until `make_super` is called no place has a superblock. -/
theorem BeforeSuper.noSuperblocks (h : BeforeSuper c s1 s) (hp : Prepared c k1 k2 (Sb.zero os) s1)
    (h1 : mkfsPrepare c (Sb.zero os) = .ok () s1) (hc : SecondGone c os init) :
    NoSuperblocks c init s := by
  obtain ⟨k, hg⟩ := hp.gone h1 hc
  cases h with
  | prepared => exact hg.noSuperblocks
  | store => exact (after_of_wp (mkfsStore_gone hp.blank hg)).noSuperblocks
  | journal h =>
    exact after_of_wp (makeJournal_noSuperblocks ((mkfsStore_gone hp.blank hg).of_ok h))

/-- Otherwise the old superblock is still there. -/
theorem Prepared.second_stays (h : Prepared c k1 k2 (Sb.zero os) s1)
    (h1 : mkfsPrepare c (Sb.zero os) = .ok () s1) (hc : ¬ SecondGone c os init) :
    ¬ NoSuperblocks c init s1 := by
  unfold SecondGone at hc
  push Not at hc
  obtain ⟨hmtd, hsuper, hbyte⟩ := hc
  have hkind : c.kind = .bdev := by
    cases hkind : c.kind with
    | mtd => exact absurd hkind hmtd
    | bdev => rfl
  obtain ⟨segno, hseg, herased⟩ := (mkfsPrepare_erased hkind os).of_ok h1
  obtain ⟨k, hk, hwhere⟩ := c.bdevSecond_eq (by omega)
  have htwo := c.two_blocks_le
  have hzero : ∀ i, (Sb.zero os).lastseg + i = i := Nat.zero_add
  -- the erase does not get to the superblock
  have hno : ∀ r, c.tail ≤ r → ¬ ErasesByte c.segsize r k (Sb.zero os).outcomes := fun r hr hb => by
    rcases hwhere with ⟨hle, rfl⟩ | ⟨hone, hge⟩
    · exact hbyte hle (hb.mono hr)
    · have := herased.last r k hb
      rw [hzero] at this
      omega
  intro hgone
  apply hgone.2
  rw [h.bdev_second hkind]
  refine hsuper.congr fun x hx hlt => ?_
  rw [hk] at hx hlt
  have hkept := herased.kept k init (x - k * c.segsize) (by omega)
    (hno _ (by unfold Cfg.tail; omega))
  rw [hzero, Nat.add_sub_cancel' (by omega)] at hkept
  exact hkept

/-- From `prepare_sb` to `make_super` neither place holds a superblock just when the device is
flash, or there was none in the second place, or the erases of `get_segment` happen to reach it. -/
theorem noSuperblocks_iff (c : Cfg) (os : List Outcome) (init : Buf) (s1 : Sb)
    (h1 : mkfsPrepare c (Sb.zero os) = .ok () s1) :
    (∀ s, BeforeSuper c s1 s → NoSuperblocks c init s) ↔ SecondGone c os init := by
  obtain ⟨k1, k2, hp⟩ := (mkfsPrepare_spec rfl).of_ok h1
  constructor
  · intro hall
    by_contra hc
    exact hp.second_stays h1 hc (hall s1 .prepared)
  · exact fun hc s hs => hs.noSuperblocks hp h1 hc

/-- A block device that has held a file system, on which the erase of segment 298 fails after 5000
bytes, and so do those before it. -/
def worn : List Outcome := List.replicate 298 .error ++ [.ok 5000, .error, .ok 8192]

theorem noSuperblocks_iff_worn :
    let s1 := after (mkfsPrepare disk300) (Sb.zero worn)
    let init := poke (fun _ => 0) disk300.bdevSecond ((diskSuper disk300 s1).bytes disk300.crc32)
    SuperAt disk300 init s1.sbOfs2 ∧ ∀ s, BeforeSuper disk300 s1 s → NoSuperblocks disk300 init s := by
  intro s1 init
  obtain ⟨⟨⟩, h1⟩ := ok_of_returns (m := mkfsPrepare disk300) (s := Sb.zero worn) (by decide +kernel)
  have hofs : s1.sbOfs2 = disk300.bdevSecond := by decide +kernel
  have hbyte : ErasesByte disk300.segsize disk300.tail (disk300.noSegs - 2) worn := by
    decide +kernel
  constructor
  · rw [hofs]
    exact superAt_bytes _ (at_poke _ _ _)
  · exact (noSuperblocks_iff disk300 worn init s1 h1).2 (Or.inr (Or.inr ⟨by decide, hbyte⟩))

/-- On a block device the old second superblock stays. -/
theorem old_superblock_stays :
    ¬ ∀ (c : Cfg) (os : List Outcome) (init : Buf) (s1 : Sb),
      mkfsPrepare c (Sb.zero os) = .ok () s1 →
      ∀ s, BeforeSuper c s1 s → NoSuperblocks c init s := by
  intro h
  obtain ⟨⟨⟩, h1⟩ := ok_of_returns (m := mkfsPrepare disk300)
    (s := Sb.zero (List.replicate 40 (.ok 8192))) (by decide +kernel)
  generalize after (mkfsPrepare disk300) (Sb.zero (List.replicate 40 (.ok 8192))) = s1 at h1
  obtain ⟨k1, k2, hp⟩ := (mkfsPrepare_spec rfl).of_ok h1
  have hsuper := superAt_bytes (c := disk300) (diskSuper disk300 s1)
    (at_poke (fun _ => 0) disk300.bdevSecond _)
  refine hp.second_stays h1 ?_ (h disk300 _
    (poke (fun _ => 0) disk300.bdevSecond ((diskSuper disk300 s1).bytes disk300.crc32)) s1 h1 s1
    .prepared)
  rintro (hmtd | hno | ⟨-, hbyte⟩)
  · exact absurd hmtd (by decide)
  · exact hno hsuper
  · exact absurd hbyte (by decide +kernel)

end Run

end Logfs.Mkfs
