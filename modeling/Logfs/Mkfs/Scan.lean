import Logfs.Mkfs.Prepare

/-!
# The scan for the second superblock

A device is a table of what an erase of each segment answers.  On such a device
`mtd_prepare_sb` is computed in closed form: `get_segment` goes up to the first segment that
can be erased, the scan down to the highest of the last 63.  The scan makes no turn when
there are less than 64 segments, and it does not spare the segment of the first superblock.
-/

namespace Logfs.Mkfs

/-- The `ioctl` of an erase succeeds. -/
def Outcome.isOk : Outcome → Bool
  | .ok _ => true
  | _ => false

/-- The segments of `n` turns of the scan, from `segno` down. -/
def downFrom : Nat → Nat → List Nat
  | _, 0 => []
  | segno, n + 1 => segno :: downFrom (segno - 1) n

/-- What the device answers to `mtd_prepare_sb`, the first segment that can be erased being `f`:
`result` says what an erase of a segment does. -/
def eraseAnswers (c : Cfg) (result : Nat → Outcome) (f : Nat) : List Outcome :=
  (List.range' 0 (f + 1)).map result ++
    (downFrom (c.noSegs - 1) (min 63 (c.noSegs - 1))).map result

section Turns

variable {c : Cfg} {result : Nat → Outcome} {rest : List Outcome} {s : Sb} {segno : Nat}

theorem wp_setEntry_lt {entry : SegEntry} {Q : Unit → Sb → Prop} {E : Stop → Sb → Prop}
    (h : segno < c.noSegs)
    (hQ : Q () { s with segmentEntry := Function.update s.segmentEntry segno entry }) :
    Wp (setEntry c segno entry) Q E s := by
  unfold setEntry
  rw [if_pos h]
  exact hQ

/-- `mtd_erase` takes the next answer. -/
theorem mtdErase_answer {o : Outcome} (hos : s.outcomes = o :: rest) (ofs size : Nat) :
    Runs (mtdErase ofs size)
      (fun ret s' => (ret = 0 ↔ o.isOk = true) ∧
        s' = { s with outcomes := rest, blits := s'.blits }) s := by
  unfold Runs Wp mtdErase
  rw [hos]
  cases o with
  | ok n => exact ⟨by simp [Outcome.isOk], rfl⟩
  | eintr => exact ⟨by simp [Outcome.isOk], rfl⟩
  | error => exact ⟨by simp [Outcome.isOk], rfl⟩

theorem devErase_answer (hkind : c.kind = .mtd) (o : Outcome) (rest : List Outcome)
    (hos : s.outcomes = o :: rest) (ofs size : Nat) :
    Runs (devErase c ofs size)
      (fun ret s' => (ret = 0 ↔ o.isOk = true) ∧
        s' = { s with outcomes := rest, blits := s'.blits }) s := by
  unfold devErase
  rw [hkind]
  exact mtdErase_answer hos ofs size

/-- `get_segment` passes `m` segments that cannot be erased and takes the next one. -/
theorem getSegmentLoop_finds (hkind : c.kind = .mtd) : ∀ (m turns : Nat) (s : Sb), m < turns →
    s.outcomes = (List.range' s.lastseg (m + 1)).map result ++ rest →
    s.lastseg + m < c.noSegs →
    (∀ i, s.lastseg ≤ i → i < s.lastseg + m → (result i).isOk = false) →
    (result (s.lastseg + m)).isOk = true →
    Runs (getSegmentLoop c turns)
      (fun segno s' => segno = s.lastseg + m ∧ s'.outcomes = rest ∧ s'.sbOfs2 = s.sbOfs2) s := by
  intro m
  induction m with
  | zero =>
    intro turns s hturns hos hlt _ hgood
    obtain ⟨turns, rfl⟩ : ∃ t, turns = t + 1 := ⟨turns - 1, by omega⟩
    have hc := c.noSegs_lt
    have hos' : s.outcomes = result s.lastseg :: rest := hos
    unfold getSegmentLoop
    rw [Runs, wp_bind, wp_get, wp_bind, wp_set, if_neg (by omega)]
    refine Wp.bind (devErase_answer hkind (result s.lastseg) rest (by exact hos') _ _) ?_
    rintro ret s1 ⟨hret, hs1⟩
    have hzero : ret = 0 := hret.mpr hgood
    rw [hzero, hs1, wp_bind, wp_note, if_neg (by decide), wp_bind, wp_note, wp_pure]
    exact ⟨rfl, rfl, rfl⟩
  | succ m ih =>
    intro turns s hturns hos hlt hbad hgood
    obtain ⟨turns, rfl⟩ : ∃ t, turns = t + 1 := ⟨turns - 1, by omega⟩
    have hc := c.noSegs_lt
    have hmod : (s.lastseg + 1) % 2 ^ 32 = s.lastseg + 1 := Nat.mod_eq_of_lt (by omega)
    have hos' : s.outcomes = result s.lastseg ::
      ((List.range' (s.lastseg + 1) (m + 1)).map result ++ rest) := hos
    unfold getSegmentLoop
    rw [Runs, wp_bind, wp_get, wp_bind, wp_set, if_neg (by omega)]
    refine Wp.bind (devErase_answer hkind (result s.lastseg) _ (by exact hos') _ _) ?_
    rintro ret s1 ⟨hret, hs1⟩
    have hne : ret ≠ 0 := fun h => by
      have hok := hret.mp h
      rw [hbad s.lastseg (Nat.le_refl _) (by omega)] at hok
      cases hok
    rw [hs1, wp_bind, wp_note, if_pos hne, wp_bind]
    refine wp_setEntry_lt (by omega) ?_
    dsimp only
    rw [hmod]
    have hadd : s.lastseg + 1 + m = s.lastseg + (m + 1) := by omega
    refine (ih turns _ (by omega) rfl (by dsimp only; omega) ?_ ?_).imp ?_
    · intro i hi hlt'
      dsimp only at hi hlt'
      exact hbad i (by omega) (by omega)
    · dsimp only
      rw [hadd]
      exact hgood
    · rintro segno s2 ⟨hsegno, hout, hofs⟩
      dsimp only at hsegno hofs
      exact ⟨by omega, hout, hofs⟩

/-- The scan over `n` segments from `segno` down finds the highest one that can be erased. -/
theorem mtdPrepareLoop_finds : ∀ (n segno : Nat) (s : Sb), n ≤ segno → segno < c.noSegs →
    s.outcomes = (downFrom segno n).map result ++ rest →
    Runs (mtdPrepareLoop c n segno)
      (fun r s' => s'.sbOfs1 = s.sbOfs1 ∧ r ≤ segno ∧
        (∀ i, r < i → i ≤ segno → (result i).isOk = false) ∧
        (r + n = segno ∧ s'.sbOfs2 = s.sbOfs2 ∨
          segno < r + n ∧ (result r).isOk = true ∧ s'.segmentEntry r = reservedEntry ∧
            s'.sbOfs2 = (r + 1) * c.segsize - 0x1000)) s := by
  intro n
  induction n with
  | zero =>
    intro segno s _ _ _
    exact ⟨rfl, Nat.le_refl _, fun i hi hle => absurd hi (by omega), Or.inl ⟨rfl, rfl⟩⟩
  | succ n ih =>
    intro segno s hn hlt hos
    unfold mtdPrepareLoop
    rw [Runs, wp_bind]
    have hos' : s.outcomes = result segno :: ((downFrom (segno - 1) n).map result ++ rest) := hos
    refine (mtdErase_answer hos' _ _).imp ?_
    rintro ret s1 ⟨hret, hs1⟩
    rw [hs1, wp_bind, wp_note]
    by_cases hzero : ret = 0
    · rw [if_neg (not_not.mpr hzero), reserveEntry, wp_bind]
      refine wp_setEntry_lt hlt ?_
      rw [wp_bind, wp_modify, wp_pure]
      refine ⟨rfl, Nat.le_refl _, fun i hi hle => absurd hi (by omega), Or.inr ⟨by omega,
        hret.mp hzero, ?_, rfl⟩⟩
      exact Function.update_self segno reservedEntry s.segmentEntry
    · have hbad : (result segno).isOk = false := by
        rw [← Bool.not_eq_true]
        exact fun h => hzero (hret.mpr h)
      rw [if_pos hzero]
      refine (ih (segno - 1) _ (by omega) (by omega) rfl).imp ?_
      rintro r s2 ⟨hofs1, hle, hfail, hend⟩
      refine ⟨hofs1, by omega, fun i hi hi' => ?_, ?_⟩
      · by_cases heq : i = segno
        · rw [heq]
          exact hbad
        · exact hfail i hi (by omega)
      · exact hend.imp (fun h => ⟨by omega, h.2⟩) fun h => ⟨by omega, h.2⟩

end Turns

/-- A segment for the second superblock: another one than that of the first, among the last 63,
which can be erased. -/
structure Candidate (c : Cfg) (result : Nat → Outcome) (f k : Nat) : Prop where
  lt : k < c.noSegs
  last : c.noSegs ≤ k + min 63 (c.noSegs - 1)
  ne : k ≠ f
  good : (result k).isOk = true

/-- The second superblock is in the highest candidate; without one there is none. -/
def SecondPlaced (c : Cfg) (result : Nat → Outcome) (f : Nat) (ret : Int) (s' : Sb) : Prop :=
  ((∃ k, Candidate c result f k) → ret = 0 ∧ ∃ k, Candidate c result f k ∧
    (∀ i, Candidate c result f i → i ≤ k) ∧ (s'.segmentEntry k).valid = reserved ∧
    k * c.segsize ≤ s'.sbOfs2 ∧ s'.sbOfs2 < (k + 1) * c.segsize ∧ s'.sbOfs1 < s'.sbOfs2) ∧
  ((¬ ∃ k, Candidate c result f k) → ret = - EIO)

section Placed

variable {c : Cfg} {result : Nat → Outcome} {rest : List Outcome} {f : Nat}

/-- The first superblock goes to `f`. -/
theorem prepareFirst_finds (hkind : c.kind = .mtd) (hf : f < c.noSegs)
    (hbad : ∀ i < f, (result i).isOk = false) (hgood : (result f).isOk = true) :
    Runs (prepareFirst c)
      (fun _ s' => s'.sbOfs1 = f * c.segsize ∧ s'.sbOfs2 = 0 ∧
        s'.outcomes = (downFrom (c.noSegs - 1) (min 63 (c.noSegs - 1))).map result ++ rest)
      (Sb.zero (eraseAnswers c result f ++ rest)) := by
  unfold prepareFirst getSegment
  rw [Runs, wp_bind, wp_bind, wp_get]
  have hzero : 0 + f = f := Nat.zero_add f
  have hlt : 0 + f < c.noSegs := by omega
  have hbad' : ∀ i, 0 ≤ i → i < 0 + f → (result i).isOk = false := fun i _ hi => hbad i (by omega)
  have hgood' : (result (0 + f)).isOk = true := by rw [hzero]; exact hgood
  refine (getSegmentLoop_finds hkind f _ (Sb.zero (eraseAnswers c result f ++ rest)) ?_
    (List.append_assoc _ _ _) hlt hbad' hgood').imp ?_
  · show f < (eraseAnswers c result f ++ rest).length + 1
    simp only [eraseAnswers, List.length_append, List.length_map, List.length_range']
    omega
  · rintro segno s1 ⟨hsegno, hos, hofs⟩
    have hsegno : segno = f := hsegno.trans hzero
    rw [hsegno, reserveEntry, wp_bind]
    refine wp_setEntry_lt hf ?_
    rw [wp_modify]
    exact ⟨rfl, hofs, hos⟩

/-- Behind the first segment that can be erased, every segment but it is a candidate. -/
theorem Candidate.gt (hbad : ∀ i < f, (result i).isOk = false) {k : Nat}
    (h : Candidate c result f k) : f < k := by
  have hne := h.ne
  by_contra hle
  have hfail := hbad k (by omega)
  rw [h.good] at hfail
  cases hfail

/-- On a device with less than 64 segments nothing is scanned. -/
theorem mtdPrepareSb_small (result : Nat → Outcome) (rest : List Outcome)
    (hkind : c.kind = .mtd) (hn : c.noSegs < 64) (hf : f < c.noSegs)
    (hbad : ∀ i < f, (result i).isOk = false) (hgood : (result f).isOk = true) :
    Runs (mtdPrepareSb c) (fun ret _ => ret = - EIO)
      (Sb.zero (eraseAnswers c result f ++ rest)) := by
  unfold mtdPrepareSb
  refine Wp.bind (prepareFirst_finds hkind hf hbad hgood) ?_
  rintro - s1 ⟨-, hofs2, -⟩
  rw [if_pos hn, mtdPrepareLoop, wp_bind, wp_pure, wp_bind, wp_get, if_pos (Or.inr (by omega))]
  rfl

/-- On a larger one the scan ends at the highest of the last 63 segments that can be erased, be it
that of the first superblock. -/
theorem mtdPrepareSb_large (result : Nat → Outcome) (rest : List Outcome)
    (hkind : c.kind = .mtd) (hn : 64 ≤ c.noSegs) (hf : f < c.noSegs)
    (hbad : ∀ i < f, (result i).isOk = false) (hgood : (result f).isOk = true) :
    Runs (mtdPrepareSb c)
      (fun ret s' =>
        (ret = - EIO ∧ ∀ i, c.noSegs ≤ i + 63 → i < c.noSegs → (result i).isOk = false) ∨
        (ret = 0 ∧ ∃ k, f ≤ k ∧ k < c.noSegs ∧ c.noSegs ≤ k + 63 ∧ (result k).isOk = true ∧
          (∀ i, k < i → i < c.noSegs → (result i).isOk = false) ∧
          s'.segmentEntry k = reservedEntry ∧ s'.sbOfs1 = f * c.segsize ∧
          s'.sbOfs2 = (k + 1) * c.segsize - 0x1000))
      (Sb.zero (eraseAnswers c result f ++ rest)) := by
  have htwo := c.two_blocks_le
  unfold mtdPrepareSb
  refine Wp.bind (prepareFirst_finds hkind hf hbad hgood) ?_
  rintro - s1 ⟨hofs1, hofs2, hos⟩
  rw [show min 63 (c.noSegs - 1) = 63 by omega] at hos
  rw [if_neg (by omega)]
  refine Wp.bind (mtdPrepareLoop_finds 63 (c.noSegs - 1) s1 (by omega) (by omega) hos) ?_
  rintro r s2 ⟨hkeep, hle, hfail, hpass | hfound⟩
  · rw [wp_bind, wp_get, if_pos (Or.inl (by omega))]
    exact Or.inl ⟨rfl, fun i hi hlt => hfail i (by omega) (by omega)⟩
  · obtain ⟨hr, hok, hentry, hend⟩ := hfound
    have hfr : f ≤ r := by
      by_contra hlt
      have hno := hbad r (by omega)
      rw [hok] at hno
      cases hno
    -- the end of a segment is behind the beginning of any segment up to it
    have hmul : f * c.segsize ≤ r * c.segsize := Nat.mul_le_mul_right _ hfr
    have hsucc : (r + 1) * c.segsize = r * c.segsize + c.segsize := Nat.succ_mul r c.segsize
    rw [wp_bind, wp_get, if_neg (by omega)]
    exact Or.inr ⟨rfl, r, hfr, by omega, by omega, hok, fun i hi hlt => hfail i hi (by omega),
      hentry, by omega, hend⟩

theorem SecondPlaced.of_none {s' : Sb} (h : ¬ ∃ k, Candidate c result f k) :
    SecondPlaced c result f (- EIO) s' :=
  ⟨fun hk => absurd hk h, fun _ => rfl⟩

/-- The error code says that there is no candidate. -/
theorem secondPlaced_error_iff {s' : Sb} :
    SecondPlaced c result f (- EIO) s' ↔ ¬ ∃ k, Candidate c result f k := by
  refine ⟨fun h hk => ?_, .of_none⟩
  have hzero := (h.1 hk).1
  exact absurd hzero (by decide)

/-- On an `mtd` device `f` is the first segment that can be erased.  The second superblock is
placed as it should be just when there is no candidate on a device of less than 64 segments,
and on a larger one when there is a candidate or the scan does not reach `f`. -/
theorem mtdPrepareSb_second_iff (c : Cfg) (hkind : c.kind = .mtd) (result : Nat → Outcome)
    (rest : List Outcome) (f : Nat) (hf : f < c.noSegs)
    (hbad : ∀ i < f, (result i).isOk = false) (hgood : (result f).isOk = true) :
    ∃ ret s', mtdPrepareSb c (Sb.zero (eraseAnswers c result f ++ rest)) = .ok ret s' ∧
      (SecondPlaced c result f ret s' ↔
        (c.noSegs < 64 ∧ ¬ ∃ k, Candidate c result f k) ∨
        (64 ≤ c.noSegs ∧ ((∃ k, Candidate c result f k) ∨ f + 63 < c.noSegs))) := by
  by_cases hn : c.noSegs < 64
  · obtain ⟨ret, s', hrun, rfl⟩ := (mtdPrepareSb_small result rest hkind hn hf hbad hgood).ok
    refine ⟨_, s', hrun, secondPlaced_error_iff.trans ?_⟩
    constructor
    · exact fun h => Or.inl ⟨hn, h⟩
    · rintro (⟨-, h⟩ | ⟨h64, -⟩)
      · exact h
      · omega
  · have h64 : 64 ≤ c.noSegs := not_lt.mp hn
    obtain ⟨ret, s', hrun, hend⟩ := (mtdPrepareSb_large result rest hkind h64 hf hbad hgood).ok
    refine ⟨ret, s', hrun, ?_⟩
    rcases hend with ⟨rfl, hfail⟩ | ⟨rfl, k, hfk, hlt, hlast, hok, habove, hentry, hofs1, hofs2⟩
    · -- the scan has passed all of the last 63 segments, so `f` is not among them
      have hnone : ¬ ∃ k, Candidate c result f k := by
        rintro ⟨k, hk⟩
        have hlast := hk.last
        have hno := hfail k (by omega) hk.lt
        rw [hk.good] at hno
        cases hno
      have hreach : f + 63 < c.noSegs := by
        by_contra hle
        have hno := hfail f (by omega) hf
        rw [hgood] at hno
        cases hno
      exact ⟨fun _ => Or.inr ⟨h64, Or.inr hreach⟩, fun _ => .of_none hnone⟩
    · by_cases hkf : k = f
      · -- the scan has ended at `f`
        have hnone : ¬ ∃ k, Candidate c result f k := by
          rintro ⟨i, hi⟩
          have hgt := hi.gt hbad
          have hno := habove i (by omega) hi.lt
          rw [hi.good] at hno
          cases hno
        constructor
        · intro h
          exact absurd (h.2 hnone) (by decide)
        · rintro (⟨hsmall, -⟩ | ⟨-, h | hreach⟩)
          · omega
          · exact absurd h hnone
          · omega
      · have hcand : Candidate c result f k := ⟨hlt, by omega, hkf, hok⟩
        have htwo := c.two_blocks_le
        have hmul : f * c.segsize ≤ k * c.segsize := Nat.mul_le_mul_right _ hfk
        have hsucc : (k + 1) * c.segsize = k * c.segsize + c.segsize := Nat.succ_mul k c.segsize
        refine ⟨fun _ => Or.inr ⟨h64, Or.inl ⟨k, hcand⟩⟩, fun _ => ⟨fun _ => ⟨rfl, k, hcand, ?_, ?_,
          ?_, ?_, ?_⟩, fun hnone => absurd ⟨k, hcand⟩ hnone⟩⟩
        · intro i hi
          by_contra hik
          have hno := habove i (by omega) hi.lt
          rw [hi.good] at hno
          cases hno
        · rw [hentry]
          rfl
        · omega
        · omega
        · omega

end Placed

/-- A flash device of `n` segments of 8 KiB, and what it answers when one segment is left. -/
def flash (n : Nat) (h : n < 2 ^ 32) : Cfg := sampleCfg .mtd 13 n smallest_gt smallest_le h

def onlySegment (k segno : Nat) : Outcome := if segno = k then .ok 8192 else .error

theorem mtdPrepareSb_second_iff_sixtyFour : ∃ ret s', mtdPrepareSb (flash 64 (by decide))
    (Sb.zero (eraseAnswers (flash 64 (by decide)) (fun _ => .ok 8192) 0 ++ [])) = .ok ret s' ∧
      SecondPlaced (flash 64 (by decide)) (fun _ => .ok 8192) 0 ret s' := by
  obtain ⟨ret, s', hrun, hiff⟩ := mtdPrepareSb_second_iff (flash 64 (by decide)) rfl
    (fun _ => .ok 8192) [] 0 (by decide) (fun i hi => absurd hi (by omega)) rfl
  exact ⟨ret, s', hrun, hiff.mpr (Or.inr ⟨by decide, Or.inl ⟨63, by decide, by decide, by decide,
    rfl⟩⟩)⟩

/-- Sixteen good segments: no second superblock is looked for.  64 segments, of which only the
sixth can be erased: both superblocks go there. -/
theorem second_superblock_misplaced :
    (∃ s', mtdPrepareSb (flash 16 (by decide))
        (Sb.zero (eraseAnswers (flash 16 (by decide)) (fun _ => .ok 8192) 0)) = .ok (- EIO) s' ∧
      ¬ SecondPlaced (flash 16 (by decide)) (fun _ => .ok 8192) 0 (- EIO) s') ∧
    ∃ s', mtdPrepareSb (flash 64 (by decide))
        (Sb.zero (eraseAnswers (flash 64 (by decide)) (onlySegment 5) 5)) = .ok 0 s' ∧
      s'.sbOfs1 = 5 * 8192 ∧ s'.sbOfs2 = 6 * 8192 - 0x1000 ∧
      ¬ SecondPlaced (flash 64 (by decide)) (onlySegment 5) 5 0 s' := by
  constructor
  · obtain ⟨ret, s', hrun, rfl⟩ := (mtdPrepareSb_small (c := flash 16 (by decide)) (f := 0)
      (fun _ => .ok 8192) [] rfl (by decide) (by decide)
      (fun i hi => absurd hi (by omega)) rfl).ok
    rw [List.append_nil] at hrun
    refine ⟨s', hrun, fun h => ?_⟩
    exact secondPlaced_error_iff.mp h ⟨15, by decide, by decide, by decide, rfl⟩
  · have hrun := ok_of_returnsZero (m := mtdPrepareSb (flash 64 (by decide)))
      (s := Sb.zero (eraseAnswers (flash 64 (by decide)) (onlySegment 5) 5)) (by decide +kernel)
    refine ⟨_, hrun, by decide +kernel, by decide +kernel, fun h => ?_⟩
    refine absurd (h.2 ?_) (by decide)
    rintro ⟨k, hk⟩
    have hgood := hk.good
    rw [onlySegment, if_neg hk.ne] at hgood
    cases hgood

end Logfs.Mkfs
