import Logfs.Mkfs.Needed
import Logfs.Mkfs.Recorded
import Logfs.Mkfs.Room

/-!
# The runs that return

The segments that a run of `mkfs()` takes are those of the geometry.  On a device that
does not fail it returns if there are as many, unless the answers come to an end
or the journal is too short for the aliases.
-/

namespace Logfs.Mkfs

/-! ## Superblocks and journal segments -/

section Place

variable {c : Cfg} {s s1 s' : Sb} {k k1 k2 : Nat} {os : List Outcome}

/-- Nothing has changed but the table, the plan and the inodes. -/
theorem Idle.of_same (harea : s'.area = s.area) (hlast : s'.lastseg = s.lastseg)
    (hout : s'.outcomes = s.outcomes) (htrace : s'.trace = s.trace) : Idle c s s' :=
  ⟨.of_same hlast (congrArg failedErases htrace) hout, harea, hlast⟩

theorem getSegment_tabled (hc : c.noSegs < 2 ^ 32 - 1) (h : Tabled c s) :
    Wp (getSegment c)
      (fun segno s' => Spends c 1 s True s' ∧ segno < c.noSegs ∧ Tabled c s' ∧ s'.area = s.area)
      (fun e s' => Stops c 1 s e s') s := by
  apply ((getSegment_draws hc h.counter).and (getSegment_spec c s)).mono
  · rintro segno s2 ⟨⟨h2, hseg, hcount⟩, s1, hbad, ht⟩
    have harea : s2.area = s.area := ((SameStore.of_badTurns hbad).trans ht.sameStore).area
    refine ⟨h2.mono (by decide), hseg, ⟨hcount, ?_⟩, harea⟩
    rw [harea]
    exact h.segno
  · exact fun _ _ h => h.1.mono (by decide) (Nat.le_refl 1)

/-- Each turn of the loop of `prepare_journal` takes one segment. -/
theorem prepareJournalLoop_spends (hc : c.noSegs < 2 ^ 32 - 1) : ∀ (n i : Nat) (s : Sb),
    i + n ≤ journalSegs → Tabled c s →
    Wp (prepareJournalLoop c n i)
      (fun _ s' => Spends c n s True s' ∧ Tabled c s' ∧ s'.area = s.area)
      (fun e s' => Stops c n s e s') s := by
  intro n
  induction n with
  | zero => exact fun i s _ h => ⟨.refl s, h, rfl⟩
  | succ n ih =>
    intro i s hi h
    unfold prepareJournalLoop
    rw [Nat.add_comm n 1]
    apply (getSegment_tabled hc h).seq
    · rintro segno s2 ⟨h2, hseg, ht2, harea⟩
      rw [if_neg (by omega)]
      unfold reserveEntry
      rw [wp_bind, wp_modify, wp_bind]
      apply wp_setEntry_of_lt hseg
      set s3 : Sb := { s2 with
        journalSeg := Function.update s2.journalSeg i segno
        segmentEntry := Function.update s2.segmentEntry segno ⟨ecLevel 1 0, reserved⟩ } with hs3
      have hidle : Idle c s2 s3 := .of_same rfl rfl rfl rfl
      have h3 := h2.seq trivial hidle.spends
      apply (ih (i + 1) s3 (by omega) (hidle.tabled ht2)).mono
      · rintro - s4 ⟨h4, ht4, harea4⟩
        exact ⟨h3.seq trivial h4, ht4, harea4.trans harea⟩
      · exact fun _ _ h4 => h3.stops trivial h4
    · exact fun _ _ h => h.mono (Nat.le_add_right _ _)

theorem prepareFirst_spends (hc : c.noSegs < 2 ^ 32 - 1) (h : Tabled c s) :
    Wp (prepareFirst c) (fun _ s' => Spends c 1 s True s' ∧ Tabled c s' ∧ s'.area = s.area)
      (fun e s' => Stops c 1 s e s') s := by
  unfold prepareFirst
  apply (getSegment_tabled hc h).bind
  rintro segno s2 ⟨h2, hseg, ht2, harea⟩
  unfold reserveEntry
  rw [wp_bind]
  apply wp_setEntry_of_lt hseg
  rw [wp_modify]
  have hidle : Idle c s2 { s2 with
      segmentEntry := Function.update s2.segmentEntry segno ⟨ecLevel 1 0, reserved⟩
      sbOfs1 := segno * c.segsize } := .of_same rfl rfl rfl rfl
  exact ⟨h2.seq trivial hidle.spends, hidle.tabled ht2, harea⟩

/-- The scan takes no segment from the counter, and finds the last one with its first call if
nothing fails. -/
theorem mtdPrepareLoop_draws (hmtd : c.kind = .mtd) : ∀ (n segno : Nat) (s : Sb),
    segno < c.noSegs →
    Wp (mtdPrepareLoop c n segno)
      (fun r s' => (segments c).Draws 1 0 s True s' ∧ s'.sbOfs1 = s.sbOfs1 ∧
        (segments c).Used s s' fun _ =>
          n ≠ 0 → r = segno ∧ s'.sbOfs2 = (segno + 1) * c.segsize - 0x1000)
      (fun e s' => (segments c).Breaks 1 0 s e s') s := by
  intro n
  induction n with
  | zero =>
    intro segno s _
    have hsame : (segments c).Draws 0 0 s True s := .refl s
    exact ⟨hsame.mono (Nat.zero_le 1), rfl, .none rfl fun h0 => absurd rfl h0⟩
  | succ n ih =>
    intro segno s hseg
    unfold mtdPrepareLoop
    apply ((mtdErase_answered s hmtd).and (mtdErase_cases _ _ s)).seq
    · rintro ret s1 ⟨hans, hsame, -⟩
      rw [wp_bind, wp_note, wp_ite]
      set s2 : Sb := { s1 with trace := .scan segno (decide (ret = 0)) :: s1.trace } with hs2
      have hlast : s2.lastseg = s.lastseg := by rw [hs2, hsame]
      have hbad : failedErases s2.trace = failedErases s.trace := by
        rw [hs2, hsame]
        rfl
      have hans : Answered c s ret s2 := hans
      have hofs : s2.sbOfs1 = s.sbOfs1 := by rw [hs2, hsame]
      refine ⟨fun hne => ?_, fun h0 => ?_⟩
      · -- an erase that fails is the fault of an answer
        have hwrong : (segments c).Draws 0 0 s True s2 :=
          .of_used hlast hbad (hans.imp fun _ h => absurd h.1 hne)
        apply (ih (segno - 1) s2 (by omega)).mono
        · rintro r s3 ⟨h3, hofs3, -⟩
          have hseq := hwrong.seq trivial h3
          rw [Nat.zero_add] at hseq
          exact ⟨hseq, hofs3.trans hofs, hans.seq h3.used fun _ _ h _ => absurd h.1 hne⟩
        · intro e s3 h3
          have hseq := hwrong.breaks trivial h3
          rwa [Nat.zero_add] at hseq
      · unfold reserveEntry
        rw [wp_bind]
        apply wp_setEntry_of_lt hseg
        rw [wp_bind, wp_modify, wp_pure]
        refine ⟨.of_used hlast hbad (hans.imp fun _ h => ⟨trivial, ?_⟩), hofs,
          hans.imp fun _ _ _ => ⟨rfl, rfl⟩⟩
        rw [Nat.one_mul]
        exact h.2
    · rintro e s1 ⟨hcut, rfl⟩
      exact hcut.breaks rfl

/-- `prepare_sb` takes one segment, and succeeds if nothing fails. -/
theorem prepareSb_draws (hc : c.noSegs < 2 ^ 32 - 1) (hmtd : c.kind = .mtd → 64 ≤ c.noSegs)
    (h : Tabled c s) :
    Wp (prepareSb c) (fun r s' => (segments c).Draws 3 1 s (r = 0) s' ∧
        (Flawless c s → 1 < c.noSegs → (c.noSegs - 1) * c.segsize ≤ s'.sbOfs2 + 0x1000))
      (fun e s' => (segments c).Breaks 3 1 s e s') s := by
  have hsize : 0x1000 < c.segsize := by
    have htwo := c.two_blocks_le
    omega
  have hfirst := (prepareFirst_spends hc h).and (prepareFirst_spec c s)
  unfold prepareSb
  cases hkind : c.kind with
  | bdev =>
    unfold bdevPrepareSb
    apply hfirst.seq _ fun _ _ h => Supply.Breaks.mono h.1 (Nat.le_succ 2) (Nat.le_refl 1)
    rintro - s1 ⟨⟨h1, ht1, -⟩, k, hk⟩
    have hlt := hk.lt
    unfold reserveEntry
    dsimp only
    rw [wp_bind]
    apply wp_setEntry_of_lt (by omega)
    rw [wp_bind, wp_modify, wp_pure]
    have hidle : Idle c s1 { s1 with
        segmentEntry := Function.update s1.segmentEntry (c.noSegs - 1) ⟨ecLevel 1 0, reserved⟩
        sbOfs2 := ((c.noSegs - 1) * c.segsize + (2 ^ 64 - 0x1000)) % 2 ^ 64 } :=
      .of_same rfl rfl rfl rfl
    have h2 := Supply.Draws.mono (h1.seq trivial hidle.spends) (Nat.le_succ 2)
    refine ⟨h2.returned trivial rfl, fun _ hsegs => ?_⟩
    have hone : 1 * c.segsize ≤ (c.noSegs - 1) * c.segsize := Nat.mul_le_mul_right _ (by omega)
    have hmax := ofs_lt_max (show c.noSegs - 1 ≤ c.noSegs by omega)
    dsimp only
    omega
  | mtd =>
    have hmin := hmtd hkind
    unfold mtdPrepareSb
    apply hfirst.seq _ fun _ _ h => Supply.Breaks.mono h.1 (Nat.le_succ 2) (Nat.le_refl 1)
    rintro - s1 ⟨⟨h1, ht1, -⟩, k, hk⟩
    rw [if_neg (by omega)]
    have h1 : (segments c).Draws 2 1 s True s1 := h1
    apply (mtdPrepareLoop_draws hkind 63 (c.noSegs - 1) s1 (by omega)).seq
    · rintro r s2 ⟨h2, hofs, hfound⟩
      have h12 := h1.seq trivial h2
      have hlast : (segments c).Used s s2 fun _ =>
          r = c.noSegs - 1 ∧ s2.sbOfs2 = (c.noSegs - 1 + 1) * c.segsize - 0x1000 :=
        h1.used.seq hfound fun _ _ _ h => h (by decide)
      have hofs2 : Flawless c s → 1 < c.noSegs →
          (c.noSegs - 1) * c.segsize ≤ s2.sbOfs2 + 0x1000 := fun hs _ => by
        obtain ⟨_, -, -, hofs2⟩ := hlast.of_fine hs
        rw [hofs2, Nat.add_mul, Nat.one_mul]
        omega
      rw [wp_bind, wp_get, wp_ite]
      refine ⟨fun hbad => ⟨⟨hlast.imp fun _ h => ?_, fun h0 => absurd h0 (by decide)⟩, hofs2⟩,
        fun _ => ⟨h12.returned trivial rfl, hofs2⟩⟩
      -- the last segment is behind the first
      obtain ⟨rfl, hofs2⟩ := h
      have hle : (k + 1) * c.segsize ≤ (c.noSegs - 1 + 1) * c.segsize :=
        Nat.mul_le_mul_right _ (by have := hk.lt; omega)
      rw [Nat.add_mul, Nat.one_mul] at hle
      rw [hofs, hk.sbOfs.1, hofs2] at hbad
      rcases hbad with hbad | hbad
      · omega
      · omega
    · exact fun _ _ h2 => h1.breaks trivial h2

/-- The offset of the second superblock is one of the device. -/
theorem Prepared.sbOfs2_lt_max (h : Prepared c k1 k2 s s') (hsegs : 1 < c.noSegs) :
    s'.sbOfs2 < 2 ^ 63 := by
  obtain ⟨s1, s2, -, h2, rfl⟩ := h.steps
  dsimp only
  cases h2 with
  | bdev _ hk _ h =>
    have hle := ofs_lt_max (show k2 ≤ c.noSegs by omega)
    have hsize : 0x1000 ≤ k2 * c.segsize := by
      have htwo := c.two_blocks_le
      have hone : 1 * c.segsize ≤ k2 * c.segsize := Nat.mul_le_mul_right _ (by omega)
      omega
    rw [h]
    dsimp only
    omega
  | mtd _ h =>
    have hlt := ofs_lt_max (show k2 + 1 ≤ c.noSegs from h.lt)
    obtain ⟨fails, -, hs⟩ := h.same
    rw [hs]
    dsimp only
    omega

end Place

/-! ## The journal -/

/-- Nothing has changed that has to do with segments; `n` offsets of entries were noted. -/
structure Noted (c : Cfg) (n : Nat) (s s' : Sb) : Prop where
  idle : Idle c s s'
  entry : s'.segmentEntry = s.segmentEntry
  jeArray : s'.jeArray.length = s.jeArray.length + n

/-- An entry of `n` bytes at `jpos` is short enough, compressed or not. -/
def FitsAt (jpos n : Nat) : Prop := jpos < blocksize ∧ jpos + n ≤ blocksize

/-- The aliases of the segments leave room for the commit entry. -/
def AliasesFit (c : Cfg) (s : Sb) : Prop := FitsAt (320 + 32 * (segmentAliases c s).length) 24

section Journal

variable {c : Cfg} {s s1 s' : Sb} {jpos segno n m : Nat} {data : List UInt8} {type : JeType}
  {P : Prop} {write : MkfsM (List UInt8 × JeType)}

theorem Noted.refl (c : Cfg) (s : Sb) : Noted c 0 s s := ⟨.refl c s, rfl, rfl⟩

theorem Noted.trans (h : Noted c n s s1) (h1 : Noted c m s1 s') : Noted c (n + m) s s' :=
  ⟨h.idle.trans h1.idle, h1.entry.trans h.entry, by rw [h1.jeArray, h.jeArray, Nat.add_assoc]⟩

/-- No more is stored than there is. -/
theorem storedLen_le (c : Cfg) (jpos : Nat) (data : List UInt8) (type : JeType) :
    storedLen c jpos data type ≤ data.length := by
  unfold storedLen
  cases h : (logfsCompress c data (compressLimit jpos)).1 with
  | none => exact Nat.le_refl _
  | some n =>
    dsimp only
    split_ifs
    · exact Nat.le_refl _
    · simp only [logfsCompress] at h
      split_ifs at h with hshort
      rw [← Option.some.inj h]
      exact Nat.le_of_lt hshort.2

/-- How `write_je` stops: in its `BUG_ON`, or behind a buffer. -/
def Overflows (e : Stop) : Prop := e = .bug ∨ e = .wild

theorem storeJe_same (j : Buf) (s : Sb) :
    Wp (storeJe c j jpos data type) (fun _ s' => s' = s) (fun e s' => s' = s ∧ Overflows e) s := by
  unfold storeJe
  dsimp only
  split_ifs
  · rfl
  · exact ⟨rfl, Or.inr rfl⟩
  · exact ⟨rfl, Or.inl rfl⟩
  · rfl
  · rfl

/-- `write_je` stops on data that are too long, and on nothing else. -/
theorem storeJe_fits (j : Buf) (s : Sb) (hlen : data.length ≤ n) :
    Wp (storeJe c j jpos data type)
      (fun r s' => s' = s ∧ (FitsAt jpos n → r.2 ≤ align n 16 + journalHeadersize))
      (fun e s' => s' = s ∧ Overflows e ∧ ¬ FitsAt jpos n) s := by
  have hle := storedLen_le c jpos data type
  by_cases hfit : FitsAt jpos n
  · have hend := hfit.2
    apply (storeJe_size hfit.1).mono
    · rintro r s' ⟨hs, -, hr⟩
      refine ⟨hs, fun _ => ?_⟩
      rw [hr]
      unfold align
      omega
    · exact fun _ _ h => absurd h (by omega)
  · apply (storeJe_same j s).mono
    · exact fun _ _ h => ⟨h, fun hf => absurd hf hfit⟩
    · exact fun _ _ h => ⟨h.1, h.2, hfit⟩

theorem writeJe_noted (j : Buf) (segno : Nat)
    (h : Wp write (fun r s' => r.1.length ≤ n ∧ r.2 = type ∧ Noted c 0 s s')
      (fun e s' => Idle c s s' ∧ Overflows e ∧ P) s) :
    Wp (writeJe c j jpos segno write)
      (fun r s' => Noted c (if type = .commit then 0 else 1) s s' ∧
        (FitsAt jpos n → r.2 ≤ align n 16 + journalHeadersize))
      (fun e s' => Idle c s s' ∧ Overflows e ∧ (P ∨ ¬ FitsAt jpos n)) s := by
  unfold writeJe
  apply h.seq
  · rintro ⟨data, type'⟩ s1 ⟨hlen, rfl, h1⟩
    dsimp only at hlen ⊢
    by_cases ht : type' = .commit
    · simp only [ht, ne_eq, not_true_eq_false, if_false, if_true]
      apply (storeJe_fits j s1 hlen).mono
      · rintro r s2 ⟨rfl, hr⟩
        exact ⟨h1, hr⟩
      · rintro e s2 ⟨rfl, he, hno⟩
        exact ⟨h1.idle, he, Or.inr hno⟩
    · simp only [ht, ne_eq, not_false_eq_true, if_true, if_false]
      have h2 : Noted c 1 s { s1 with jeArray := s1.jeArray ++ [segno * c.segsize + jpos] } := by
        refine ⟨h1.idle.trans (.of_same rfl rfl rfl rfl), h1.entry, ?_⟩
        dsimp only
        rw [List.length_append, h1.jeArray]
        rfl
      apply (storeJe_fits j _ hlen).mono
      · rintro r s2 ⟨rfl, hr⟩
        exact ⟨h2, hr⟩
      · rintro e s2 ⟨rfl, he, hno⟩
        exact ⟨h2.idle, he, Or.inr hno⟩
  · rintro e s1 ⟨h1, he, hno⟩
    exact ⟨h1, he, Or.inl hno⟩

theorem jeAnchor_noted (s : Sb) {E : Stop → Sb → Prop} :
    Wp jeAnchor (fun r s' => r.1.length ≤ 168 ∧ r.2 = .anchor ∧ Noted c 0 s s') E s := by
  have hfind : Wp (findOrCreateInode inoMaster) (fun _ s' => Noted c 0 s s') E s := by
    unfold findOrCreateInode
    rw [wp_bind, wp_get]
    cases s.inoTree.get inoMaster with
    | none => exact ⟨.of_inodes _ _ c s, rfl, rfl⟩
    | some i => exact .refl c s
  unfold jeAnchor
  apply hfind.bind
  intro i s1 h1
  refine ⟨?_, rfl, h1⟩
  simp [anchorBytes, embeddedFields, i0Blocks]

theorem jeDynsb_noted (s : Sb) {E : Stop → Sb → Prop} :
    Wp jeDynsb (fun r s' => r.1.length ≤ 64 ∧ r.2 = .dynsb ∧ Noted c 0 s s') E s :=
  ⟨by rw [dynsbBytes_length], rfl, .refl c s⟩

theorem jeAlias_noted (hsegs : c.noSegs < 2 ^ 31) (s : Sb) :
    Wp (jeAlias c) (fun r s' => r.1.length ≤ 32 * (segmentAliases c s).length ∧ r.2 = .objAlias ∧
        Noted c 0 s s') (fun e s' => Idle c s s' ∧ Overflows e ∧ ¬ AliasesFit c s) s := by
  have hlen := segmentAliases_flatten_length c s
  unfold jeAlias
  rw [wp_bind, wp_get]
  dsimp only
  rw [wp_ite]
  refine ⟨fun hwild => ⟨.refl c s, Or.inr rfl, fun hfit => ?_⟩, fun _ => ⟨Nat.le_of_eq hlen, rfl, .refl c s⟩⟩
  obtain ⟨-, hend⟩ := hfit
  simp only [blocksize, blockshift] at hwild hend
  omega

theorem jeCommit_noted (h : s.jeArray.length = 3) {E : Stop → Sb → Prop} :
    Wp jeCommit (fun r s' => r.1.length ≤ 24 ∧ r.2 = .commit ∧ Noted c 0 s s') E s := by
  refine ⟨?_, rfl, .refl c s⟩
  dsimp only
  rw [List.length_flatMap, List.map_congr_left fun _ _ => be_length _ _]
  simp [h]

/-- `make_journal` takes no segment, and stops on too many aliases. -/
theorem makeJournal_draws (hsegs : c.noSegs < 2 ^ 31) (hje : s.jeArray = []) :
    Wp (makeJournal c) (fun r s' => (segments c).Draws 1 0 s (r = 0) s')
      (fun e s' => (segments c).Breaks 1 0 s e s' ∨
        Idle c s s' ∧ Overflows e ∧ ¬ AliasesFit c s) s := by
  have hal : ∀ {s1 : Sb}, s1.segmentEntry = s.segmentEntry →
      segmentAliases c s1 = segmentAliases c s := fun {s1} h => by
    unfold segmentAliases segmentAlias
    rw [h]
  unfold makeJournal
  rw [wp_bind, wp_get, show align segmentHeadersize 16 = 32 by decide]
  dsimp only
  -- the anchor
  apply (writeJe_noted (P := False) _ _ (jeAnchor_noted s)).seq
  · rintro ⟨j, n0⟩ s1 ⟨h1, hn0⟩
    have hn0 : n0 ≤ 192 := hn0 ⟨by decide, by decide⟩
    dsimp only
    -- the dynamic superblock
    apply (writeJe_noted (P := False) _ _ (jeDynsb_noted s1)).seq
    · rintro ⟨j, n1⟩ s2 ⟨h2, hn1⟩
      have hn1 : n1 ≤ 80 := hn1 ⟨by simp only [blocksize, blockshift]; omega,
        by simp only [blocksize, blockshift]; omega⟩
      have h12 := h1.trans h2
      have halias := jeAlias_noted hsegs s2
      unfold AliasesFit at halias
      rw [hal h12.entry] at halias
      set count := (segmentAliases c s).length with hcount
      have hunfit : ∀ {jpos n}, jpos + n ≤ 344 + 32 * count → jpos < 344 + 32 * count →
          ¬ FitsAt jpos n → ¬ AliasesFit c s := fun {jpos n} hle hlt hno hfit => by
        obtain ⟨-, hend⟩ := hfit
        rw [← hcount] at hend
        exact hno ⟨by omega, by omega⟩
      dsimp only
      -- the aliases
      apply (writeJe_noted _ _ halias).seq
      · rintro ⟨j, n2⟩ s3 ⟨h3, hn2⟩
        have h13 := h12.trans h3
        dsimp only
        have hlen : s3.jeArray.length = 3 := by
          rw [h13.jeArray, hje]
          rfl
        -- the commit entry
        apply (writeJe_noted (P := False) _ _ (jeCommit_noted hlen)).seq
        · rintro ⟨j, n3⟩ s4 ⟨h4, -⟩
          have hidle : (segments c).Draws 0 0 s True s4 := (h13.trans h4).idle.spends
          apply (devWrite_draws _ _ s4 (lt_trans (Nat.mod_lt _ (by decide)) (by decide))
            (Nat.le_refl _)).mono
          · exact fun _ _ h5 => hidle.seq trivial h5.1
          · exact fun _ _ h5 => Or.inl (hidle.breaks trivial h5)
        · rintro e s4 ⟨h4, he, hno⟩
          refine Or.inr ⟨h13.idle.trans h4, he, ?_⟩
          by_cases hfit : FitsAt (32 + n0 + n1) (32 * count)
          · have hn2 : n2 ≤ 32 * count + 16 := by
              have hle := hn2 hfit
              have hal : align (32 * count) 16 ≤ 32 * count :=
                align_le_of_dvd (Nat.le_refl _) (by omega)
              simp only [journalHeadersize] at hle
              omega
            exact hunfit (by omega) (by omega) (hno.resolve_left id)
          · exact hunfit (by omega) (by omega) hfit
      · rintro e s3 ⟨h3, he, hno⟩
        refine Or.inr ⟨h12.idle.trans h3, he, ?_⟩
        rcases hno with hno | hno
        · exact hno
        · exact hunfit (by omega) (by omega) hno
    · rintro e s2 ⟨-, -, hno⟩
      exact absurd ⟨by simp only [blocksize, blockshift]; omega,
        by simp only [blocksize, blockshift]; omega⟩ (hno.resolve_left id)
  · rintro e s1 ⟨-, -, hno⟩
    exact absurd ⟨by decide, by decide⟩ (hno.resolve_left id)

end Journal

/-! ## The whole run -/

/-- The segments of a new file system: that of the first superblock, and those of the journal and
of the files. -/
def Cfg.needed (c : Cfg) : Nat := 1 + c.noJournalSegs + c.segfileTakes

/-- The erases and writes of a run in which nothing fails: two for each segment, and those of the
second superblock, of the areas at the end, of the journal and of the superblocks. -/
def Cfg.calls (c : Cfg) : Nat := 2 * c.needed + noAreas + 4

/-- How a run ends that was going to take `n` segments more with at most `k` calls: it is cut off,
there are not as many, or the device has given a wrong answer. -/
def Ends (c : Cfg) (k n : Nat) (s : Sb) (e : Stop) (s' : Sb) : Prop :=
  (segments c).Breaks k n s e s' ∨ (∃ msg, e = .fail msg) ∧
    ∃ used, s.outcomes = used ++ s'.outcomes ∧ ∃ o ∈ used, ¬ o.Fine c.kind

section Run

variable {c : Cfg} {s s1 s2 s' : Sb} {k k' n m k1 k2 : Nat} {good : Prop} {os : List Outcome}

theorem Ends.mono {e : Stop} (h : Ends c k n s e s') (hk : k ≤ k') (hn : n ≤ m) :
    Ends c k' m s e s' :=
  h.imp_left fun h => h.mono hk hn

theorem Ends.behind {e : Stop} (h : (segments c).Draws k n s good s1) (hg : good)
    (h1 : Ends c k' m s1 e s') : Ends c (k + k') (n + m) s e s' := by
  rcases h1 with h1 | ⟨he, used1, hos1, o, ho, hno⟩
  · exact Or.inl (h.breaks hg h1)
  · obtain ⟨used, hos, -⟩ := h.used
    change s.outcomes = used ++ s1.outcomes at hos
    refine Or.inr ⟨he, used ++ used1, ?_, o, List.mem_append_right _ ho, hno⟩
    rw [hos, hos1, List.append_assoc]

/-- `fail()` is called when the device has failed. -/
theorem orFail_draws {msg : String} {p : MkfsM Int} {P : Sb → Prop} {E : Stop → Sb → Prop}
    (h : Wp p (fun r s' => (segments c).Draws k n s (r = 0) s' ∧ (r = 0 → P s')) E s)
    (hE : ∀ e s', Ends c k n s e s' → E e s') :
    Wp (orFail msg p) (fun _ s' => (segments c).Draws k n s True s' ∧ P s') E s := by
  apply wp_orFail
  apply h.imp
  rintro r s' ⟨h1, h2⟩
  refine ⟨fun h0 => ⟨h1.returned h0 trivial, h2 h0⟩, fun hne => hE _ _ (Or.inr ⟨⟨msg, rfl⟩, ?_⟩)⟩
  exact h1.used.wrong fun _ h => hne h.1

theorem orFail_ends {msg : String} {p : MkfsM Int} {P : Sb → Prop}
    (h : Wp p (fun r s' => (segments c).Draws k n s (r = 0) s' ∧ (r = 0 → P s'))
      (fun e s' => (segments c).Breaks k n s e s') s) :
    Wp (orFail msg p) (fun _ s' => (segments c).Draws k n s True s' ∧ P s')
      (fun e s' => Ends c k n s e s') s :=
  orFail_draws (h.mono (fun _ _ h => h) fun _ _ h => Or.inl h) fun _ _ h => h

/-- The counter after a run from the beginning. -/
theorem lastseg_eq (h : (segments c).Draws k n (Sb.zero os) True s) :
    s.lastseg = n + failedErases s.trace := by
  have hcount := h.count trivial
  change s.lastseg + 0 = 0 + failedErases s.trace + n at hcount
  omega

/-- On a device that does not fail no segment is skipped. -/
theorem lastseg_of_fine (h : (segments c).Draws k n (Sb.zero os) True s)
    (hfine : ∀ o ∈ os, o.Fine c.kind) : s.lastseg = n := by
  obtain ⟨_, -, -, hzero, -⟩ := h.used.of_fine hfine
  change failedErases s.trace = 0 at hzero
  rw [lastseg_eq h, hzero, Nat.add_zero]

theorem tabled_zero (c : Cfg) (os : List Outcome) : Tabled c (Sb.zero os) :=
  ⟨Nat.zero_le _, fun _ h => nomatch h⟩

theorem mkfsPrepare_draws (hc : c.noSegs < 2 ^ 32 - 1) (hmtd : c.kind = .mtd → 64 ≤ c.noSegs) :
    Wp (mkfsPrepare c) (fun _ s' => (segments c).Draws 3 1 (Sb.zero os) True s' ∧
        (Flawless c (Sb.zero os) → 1 < c.noSegs →
          (c.noSegs - 1) * c.segsize ≤ s'.sbOfs2 + 0x1000))
      (fun e s' => Ends c 3 1 (Sb.zero os) e s') (Sb.zero os) := by
  unfold mkfsPrepare
  apply (orFail_ends ((prepareSb_draws hc hmtd (tabled_zero c os)).imp
    fun _ _ h => ⟨h.1, fun _ => h.2⟩)).bind
  rintro - s1 ⟨h1, hofs⟩
  rw [wp_note]
  have hnote : (segments c).Draws 0 0 s1 True { s1 with trace := .prepared :: s1.trace } :=
    .of_same rfl rfl rfl
  exact ⟨h1.seq trivial hnote, hofs⟩

/-- The journal segments and the files. -/
theorem mkfsStore_draws (hc : c.noSegs < 2 ^ 32 - 1) (hj : c.noJournalSegs ≤ journalSegs)
    (hb : Blank c s) :
    Wp (mkfsStore c)
      (fun _ s' => (segments c).Draws (2 * (c.noJournalSegs + c.segfileTakes) + noAreas)
        (c.noJournalSegs + c.segfileTakes) s True s' ∧ Tabled c s')
      (fun e s' => Ends c (2 * (c.noJournalSegs + c.segfileTakes) + noAreas)
        (c.noJournalSegs + c.segfileTakes) s e s') s := by
  have hopen : ∀ l, (s.area l).buf.isSome = false := fun l => by rw [hb.area l]; rfl
  have htabled : Tabled c s := ⟨hb.lastseg_le, fun l hl => by rw [hopen l] at hl; cases hl⟩
  unfold mkfsStore
  apply ((prepareJournal_spec s).and
    (prepareJournalLoop_spends hc c.noJournalSegs 0 s (by omega) htabled)).seq
  · rintro - s1 ⟨⟨h1, hino1⟩, hspend1, ht1, harea⟩
    have hready1 := h1.ready hb.ready
    have hheld1 : FilesHeld c (fun _ _ => none) [] s1 := by
      apply hb.filesHeld.same h1.objects
      unfold inodeAt
      rw [hino1]
    have hclosed1 : ClosedFrom 0 s1 := fun l _ => by rw [harea, hopen l]
    apply (orFail_ends (writeSegmentFile_takes hc hready1 ht1 hheld1 hclosed1)).seq
    · rintro - s2 ⟨hspend2, ht2, hroom⟩
      have h12 := hspend1.seq trivial hspend2
      apply (orFail_ends (writeRootdir_spends hc ht2 hroom)).seq
      · rintro - s3 ⟨hspend3, ht3⟩
        have h13 := Supply.Draws.seq h12 trivial hspend3
        apply (orFail_ends (flushAreas_draws noAreas 0 s3 ht3)).mono
        · rintro - s4 ⟨h4, ht4⟩
          exact ⟨h13.seq trivial h4, ht4⟩
        · intro e s4 h4
          have hend := Ends.behind h13 trivial h4
          exact hend
      · intro e s3 h3
        have hend := Ends.behind h12 trivial h3
        exact hend.mono (Nat.le_add_right _ _) (Nat.le_refl _)
    · intro e s2 h2
      have hend := Ends.behind hspend1 trivial h2
      exact hend.mono (by omega) (Nat.le_refl _)
  · rintro e s1 ⟨-, h1⟩
    have hend : Ends c (2 * c.noJournalSegs) c.noJournalSegs s e s1 := Or.inl h1
    exact hend.mono (by omega) (by omega)

/-- Both superblocks are written where they were placed. -/
theorem makeSuper_draws (h1 : s.sbOfs1 < 2 ^ 63) (h2 : s.sbOfs2 < 2 ^ 63) :
    Wp (makeSuper c) (fun r s' => (segments c).Draws 2 0 s (r = 0) s')
      (fun e s' => (segments c).Breaks 2 0 s e s') s := by
  have hsize := secsize_le c
  unfold makeSuper
  rw [wp_bind, wp_get]
  apply (devWrite_draws _ _ s h1 hsize).seq
  · rintro r s1 ⟨hs, -⟩
    rw [wp_ite]
    refine ⟨fun h0 => ?_, fun _ => hs.mono (Nat.le_succ 1)⟩
    apply (devWrite_draws _ _ s1 h2 hsize).mono
    · exact fun _ _ h => hs.seq h0 h.1
    · exact fun _ _ h => hs.breaks h0 h
  · exact fun _ _ h => h.mono (Nat.le_succ 1) (Nat.le_refl 0)

/-- What is left to record when the areas are written fits if the segments are few. -/
theorem Reached.unfit (h : Reached c os k1 k2 s1 s2) (hno : ¬ AliasesFit c s2) :
    116 < s2.lastseg := by
  by_contra hle
  apply hno
  unfold AliasesFit
  rw [h.aliases_length]
  have hrec : recordedSegs c s2 ≤ s2.lastseg + 1 := by
    unfold recordedSegs
    split_ifs
    · exact Nat.le_succ _
    · exact Nat.le_refl _
  constructor
  · simp only [blocksize, blockshift]
    omega
  · simp only [blocksize, blockshift]
    omega

/-- A run that has taken its segments, and has too many of them to record. -/
structure Crowded (c : Cfg) (os : List Outcome) (e : Stop) (s : Sb) : Prop where
  draws : (segments c).Draws c.calls c.needed (Sb.zero os) True s
  overflows : Overflows e
  many : 116 < s.lastseg

/-- What a run of `mkfs()` takes, and how it ends. -/
theorem mkfs_draws (hsegs : c.noSegs < 2 ^ 31) (hj : c.noJournalSegs ≤ journalSegs)
    (hmtd : c.kind = .mtd → 64 ≤ c.noSegs) (os : List Outcome) :
    Wp (mkfs c) (fun _ s' => (segments c).Draws c.calls c.needed (Sb.zero os) True s' ∧
        (Flawless c (Sb.zero os) → 1 < c.noSegs →
          (c.noSegs - 1) * c.segsize ≤ s'.sbOfs2 + 0x1000))
      (fun e s' => Ends c c.calls c.needed (Sb.zero os) e s' ∨ Crowded c os e s') (Sb.zero os) := by
  have hc : c.noSegs < 2 ^ 32 - 1 := by omega
  have hneeded : 1 + (c.noJournalSegs + c.segfileTakes) = c.needed := (Nat.add_assoc _ _ _).symm
  have hcalls : 3 + (2 * (c.noJournalSegs + c.segfileTakes) + noAreas) + 3 = c.calls := by
    unfold Cfg.calls Cfg.needed
    omega
  unfold mkfs
  apply ((mkfsPrepare_draws hc hmtd).and (Wp.self (mkfsPrepare c) (Sb.zero os))).seq
  · rintro ⟨⟩ s1 ⟨⟨h1, hofs⟩, hrun1⟩
    obtain ⟨k1, k2, hp⟩ := (mkfsPrepare_spec rfl).of_ok hrun1
    apply (((mkfsStore_draws hc hj hp.blank).and (Wp.self (mkfsStore c) s1)).and
      (mkfsStore_separate hp)).seq
    · rintro ⟨⟩ s2 ⟨⟨⟨h2, ht2⟩, hrun2⟩, hset⟩
      have h12 := h1.seq trivial h2
      rw [hneeded] at h12
      obtain ⟨_, k, hreached⟩ := reached hrun1 hrun2
      obtain ⟨hplan1, hplan2⟩ := steps_sbOfs hreached.steps
      -- two segments have been taken, so there are two
      have hmany : 1 < c.noSegs := by
        have hcount := lastseg_eq h12
        have hcounter := ht2.counter
        unfold Cfg.needed Cfg.segfileTakes at hcount
        omega
      have hjournal : Wp (makeJournal c)
          (fun r s3 => (segments c).Draws 1 0 s2 (r = 0) s3 ∧ (r = 0 → Frozen s2 s3))
          (fun e s3 => Ends c 1 0 s2 e s3 ∨ Idle c s2 s3 ∧ Overflows e ∧ ¬ AliasesFit c s2)
          s2 := by
        apply ((makeJournal_draws hsegs hset.jeArray).and (makeJournal_frozen s2)).mono
        · exact fun _ _ h => ⟨h.1, fun _ => h.2⟩
        · exact fun _ _ h => h.1.imp_left Or.inl
      apply (orFail_draws hjournal fun _ _ => Or.inl).seq
      · rintro - s3 ⟨h3, hfrozen⟩
        have h13 := h12.seq trivial h3
        have hofs1 : s3.sbOfs1 < 2 ^ 63 := by
          rw [hfrozen.plan.sbOfs1, hset.sbOfs.1]
          exact ofs_lt_max (Nat.le_of_lt (lt_of_lt_of_le hset.first.1.lt ht2.counter))
        have hofs2 : s3.sbOfs2 = s1.sbOfs2 := hfrozen.plan.sbOfs2.trans hplan2
        have hlt2 : s3.sbOfs2 < 2 ^ 63 := by
          rw [hofs2]
          exact hp.sbOfs2_lt_max hmany
        apply (orFail_ends (((makeSuper_draws hofs1 hlt2).and (makeSuper_frozen s3)).mono
          (fun _ _ h => ⟨h.1, fun _ => h.2⟩) fun _ _ h => h.1)).mono
        · rintro - s4 ⟨h4, hfrozen4⟩
          have h14 := h13.seq trivial h4
          refine ⟨h14.mono (Nat.le_of_eq hcalls), fun hs hsegs => ?_⟩
          rw [hfrozen4.plan.sbOfs2, hofs2]
          exact hofs hs hsegs
        · intro e s4 h4
          have hend := Ends.behind h13 trivial h4
          exact Or.inl (hend.mono (Nat.le_of_eq hcalls) (Nat.le_refl _))
      · rintro e s3 (h3 | ⟨h3, he, hno⟩)
        · have hend := Ends.behind h12 trivial h3
          exact Or.inl (hend.mono (by omega) (Nat.le_refl _))
        · -- the segments are taken, and there are too many of them
          have h13 := h12.seq trivial h3.spends
          refine Or.inr ⟨h13.mono (by omega), he, ?_⟩
          rw [h3.lastseg]
          exact hreached.unfit hno
    · rintro e s2 ⟨⟨h2, -⟩, -⟩
      have hend := Ends.behind h1 trivial h2
      exact Or.inl (hend.mono (by omega) (Nat.le_of_eq hneeded))
  · rintro e s1 ⟨h1, -⟩
    exact Or.inl (h1.mono (by omega) (by omega))

/-- A run that returns has taken the segments of a new file system and those that could not be
erased.  One that does not was cut off, found too few segments, was given a wrong answer by the
device, or had more than 116 segments, which the journal may have no room for. -/
theorem mkfs_ends (c : Cfg) (os : List Outcome) (s : Sb) (hsegs : c.noSegs < 2 ^ 31)
    (hj : c.noJournalSegs ≤ journalSegs) (hmtd : c.kind = .mtd → 64 ≤ c.noSegs) :
    (mkfs c (Sb.zero os) = .ok () s → s.lastseg = c.needed + failedErases s.trace) ∧
    ∀ e, mkfs c (Sb.zero os) = .error e s →
      e = .killed ∧ s.outcomes = [] ∨
      e = .fail "no more free segments" ∧ c.noSegs < c.needed + failedErases s.trace ∨
      (∃ msg, e = .fail msg) ∧
        (∃ used, os = used ++ s.outcomes ∧ ∃ o ∈ used, ¬ o.Fine c.kind) ∨
      (e = .bug ∨ e = .wild) ∧ s.lastseg = c.needed + failedErases s.trace ∧ 116 < s.lastseg := by
  have h := mkfs_draws hsegs hj hmtd os
  constructor
  · exact fun hrun => lastseg_eq (h.of_ok hrun).1
  · intro e hrun
    rcases h.of_error hrun with (⟨-, hcut | ⟨he, hlt⟩⟩ | hwrong) | hmany
    · exact Or.inl hcut
    · refine Or.inr (Or.inl ⟨he, ?_⟩)
      change c.noSegs + 0 < 0 + failedErases s.trace + c.needed at hlt
      omega
    · exact Or.inr (Or.inr (Or.inl hwrong))
    · exact Or.inr (Or.inr (Or.inr ⟨hmany.overflows, lastseg_eq hmany.draws, hmany.many⟩))

theorem mkfs_ends_sixteen : let s := after (mkfs sixteenGiB) (badStart 0)
    s.lastseg = sixteenGiB.needed + failedErases s.trace := by
  obtain ⟨_, h⟩ := ok_of_returns returns_sixteen
  exact (mkfs_ends sixteenGiB _ _ (by decide) (by decide) (by decide)).1 h

/-- A run that returns has used no segment twice when the segments of a new file system and those
that could not be erased are all below the one of the second superblock. -/
theorem unmixed_of_needed_le (c : Cfg) (os : List Outcome) (s : Sb) (hsegs : c.noSegs < 2 ^ 31)
    (hj : c.noJournalSegs ≤ journalSegs) (hmtd : c.kind = .mtd → 64 ≤ c.noSegs)
    (hrun : mkfs c (Sb.zero os) = .ok () s)
    (hroom : c.needed + failedErases s.trace ≤ secondSegno c s) : Unmixed c s := by
  have hc : c.noSegs < 2 ^ 32 - 1 := by omega
  have hlast := lastseg_eq ((mkfs_draws hsegs hj hmtd os).of_ok hrun).1
  have hhistory := ((mkfs_handed hc os).of_ok hrun).2
  have hend : after (mkfs c) (Sb.zero os) = s := by
    unfold after
    rw [hrun]
  have hverdict := unmixed_iff_sparesSecond hc os
  rw [hend] at hverdict
  refine hverdict.1.2 (hverdict.2.2 fun hmem => ?_)
  have hlt := hhistory.lt (takenSince_sub hmem)
  omega

/-- The segments that were taken lie in front of the second superblock, if that is in the last segment
or the one before. -/
theorem roomy_of_needed (hlast : s.lastseg = c.needed)
    (hofs : (c.noSegs - 1) * c.segsize ≤ s.sbOfs2 + 0x1000) (hroom : c.needed + 1 < c.noSegs)
    (hlow : c.needed * c.segsize ≤ 2 ^ 32) : Roomy c s := by
  have htwo := c.two_blocks_le
  have hle : (c.needed + 1) * c.segsize ≤ (c.noSegs - 1) * c.segsize :=
    Nat.mul_le_mul_right _ (by omega)
  rw [Nat.add_mul, Nat.one_mul] at hle
  constructor
  · rw [hlast]
    omega
  · rwa [hlast]

/-- On a device that does not fail and has room for it, `mkfs()` returns with a file system that
both superblocks lead to, when it is given an answer for every byte of its erases and writes. -/
theorem mkfs_completes (c : Cfg) (inflate : List UInt8 → List UInt8) (os : List Outcome)
    (hinf : ∀ inp n, (c.deflate inp n).1 = true → inflate (c.deflate inp n).2 = inp)
    (hpos : 1 ≤ c.noJournalSegs) (hj : c.noJournalSegs ≤ journalSegs)
    (hmtd : c.kind = .mtd → 64 ≤ c.noSegs) (hsegs : c.noSegs < 2 ^ 31)
    (hroom : c.needed + 1 < c.noSegs) (hlow : c.needed * c.segsize ≤ 2 ^ 32)
    (hfew : c.needed ≤ 116) (hfine : ∀ o ∈ os, o.Fine c.kind)
    (henough : c.calls * c.segsize ≤ os.countP Outcome.moves) :
    ∃ s, mkfs c (Sb.zero os) = .ok () s ∧ s.lastseg = c.needed ∧ ∃ v, Shows c s v ∧ ∀ init,
      mount c.crc32 inflate (s.content init) s.sbOfs1 = some v ∧
        mount c.crc32 inflate (s.content init) s.sbOfs2 = some v := by
  have h := mkfs_draws hsegs hj hmtd os
  cases hrun : mkfs c (Sb.zero os) with
  | ok a s =>
    obtain ⟨hdraws, hofs⟩ := h.of_ok hrun
    have hlast := lastseg_of_fine hdraws hfine
    have hroomy := roomy_of_needed hlast (hofs hfine (by omega)) hroom hlow
    have hmedium := (mkfs_medium hinf hpos os).of_ok hrun hroomy
    refine ⟨s, rfl, hlast, viewOf c s, (hmedium eraseBuf).1.shows, fun init => ?_⟩
    obtain ⟨hm, h1, h2⟩ := hmedium init
    exact ⟨hm.mount hpos h1, hm.mount hpos h2⟩
  | error e s =>
    -- nothing has gone wrong, and the answers last
    rcases h.of_error hrun with (⟨hused, hreason⟩ | ⟨-, used, hos, o, ho, hno⟩) | hmany
    · obtain ⟨used, hos, hzero, hlt⟩ := hused.of_fine hfine
      change os = used ++ s.outcomes at hos
      change failedErases s.trace = 0 at hzero
      rcases hreason with ⟨-, hempty⟩ | ⟨-, hlt'⟩
      · rw [hempty, List.append_nil] at hos
        rw [← hos] at hlt
        exact absurd henough (not_le.2 hlt)
      · change c.noSegs + 0 < 0 + failedErases s.trace + c.needed at hlt'
        omega
    · change os = used ++ s.outcomes at hos
      exact absurd (hfine o (by rw [hos]; exact List.mem_append_left _ ho)) hno
    · have hlast := lastseg_of_fine hmany.draws hfine
      have hgt := hmany.many
      omega

/-- The device of sixteen gigabytes writes a block each time. -/
theorem mkfs_completes_sixteen :
    ∃ s, mkfs sixteenGiB
        (Sb.zero (List.replicate (sixteenGiB.calls * sixteenGiB.segsize) (.ok 4096))) = .ok () s ∧
      s.lastseg = 4 ∧ ∃ v, Shows sixteenGiB s v ∧ ∀ init,
        mount byteSum restoreZeros (s.content init) s.sbOfs1 = some v ∧
          mount byteSum restoreZeros (s.content init) s.sbOfs2 = some v := by
  apply mkfs_completes sixteenGiB restoreZeros _ restoreZeros_stripZeros (by decide) (by decide)
    (by decide) (by decide) (by decide) (by decide) (by decide)
  · intro o ho
    rw [List.eq_of_mem_replicate ho]
    trivial
  · rw [List.countP_replicate, if_pos (by decide)]

end Run

end Logfs.Mkfs
