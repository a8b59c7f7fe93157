import Logfs.Lib.Supply
import Logfs.Mkfs.Files

/-!
# The segments a run takes

Segments are a supply: `get_segment` takes the next one that can be erased.  An
object takes no segment as long as a block has room in its area, and one when not,
so what a function takes is known before it is called.  It does not stop unless
the answers of the device or the segments come to an end.
-/

namespace Logfs.Mkfs

/-! ## Failures -/

/-- The turns of `get_segment` that have failed. -/
def failedErases : List Event → Nat
  | [] => 0
  | .erase _ false :: tr => failedErases tr + 1
  | _ :: tr => failedErases tr

/-- `pwrite` goes on after an interruption, the `ioctl` does not. -/
def Outcome.Fine (k : Kind) : Outcome → Prop
  | .ok _ => True
  | .eintr => k = .bdev
  | .error => False

/-- Some bytes have arrived. -/
def Outcome.moves : Outcome → Bool
  | .ok n => decide (0 < n)
  | _ => false

/-- Nothing will fail. -/
def Flawless (c : Cfg) (s : Sb) : Prop := ∀ o ∈ s.outcomes, o.Fine c.kind

/-- The segments of the device. -/
def segments (c : Cfg) : Supply Stop Sb Outcome where
  total := c.noSegs
  gone := Sb.lastseg
  bad s := failedErases s.trace
  answers := Sb.outcomes
  fine o := o.Fine c.kind
  moves := Outcome.moves
  most := c.segsize
  empty := .fail "no more free segments"
  cut e s := e = .killed ∧ s.outcomes = []

/-- For a segment there is one call to erase it and one to write it. -/
abbrev Spends (c : Cfg) (n : Nat) (s : Sb) (good : Prop) (s' : Sb) : Prop :=
  (segments c).Draws (2 * n) n s good s'

abbrev Stops (c : Cfg) (n : Nat) (s : Sb) (e : Stop) (s' : Sb) : Prop :=
  (segments c).Breaks (2 * n) n s e s'

section Parts

variable {c : Cfg} {s s1 s' : Sb} {n m : Nat} {e : Stop} {good good' : Prop}

theorem Spends.seq (h : Spends c n s good s1) (hgood : good) (h1 : Spends c m s1 good' s') :
    Spends c (n + m) s good' s' := by
  have hseq := Supply.Draws.seq h hgood h1
  rwa [← Nat.mul_add] at hseq

theorem Spends.stops (h : Spends c n s good s1) (hgood : good) (h1 : Stops c m s1 e s') :
    Stops c (n + m) s e s' := by
  have hseq := Supply.Draws.breaks h hgood h1
  rwa [← Nat.mul_add] at hseq

theorem Stops.mono (h : Stops c n s e s') (hle : n ≤ m) : Stops c m s e s' :=
  Supply.Breaks.mono h (Nat.mul_le_mul_left 2 hle) hle

end Parts

section Device

variable {c : Cfg} {s s' : Sb} {evs : List Event} {ofs size : Nat}

/-- `safe_pwrite` fails on an error only, uses an answer that moves it on for each byte at most, and
is cut off before its end when there are no answers left. -/
theorem safePwriteLoop_used (buf : Buf) (size ofs : Nat) : ∀ (os : List Outcome) (done : Nat)
    (bl : List Blit), ∃ used, os = used ++ (safePwriteLoop buf size ofs os done bl).2.1 ∧
      used.countP Outcome.moves ≤ size - done ∧
      (∀ r, (safePwriteLoop buf size ofs os done bl).1 = some r → r < 0 → .error ∈ used) ∧
      ((safePwriteLoop buf size ofs os done bl).1 = none →
        (safePwriteLoop buf size ofs os done bl).2.1 = [] ∧
          used.countP Outcome.moves < size - done) := by
  intro os
  induction os with
  | nil =>
    intro done bl
    refine ⟨[], rfl, Nat.zero_le _, fun r hr hneg => ?_, fun hr => ⟨rfl, ?_⟩⟩
    · unfold safePwriteLoop at hr
      split_ifs at hr
      cases hr
      exact absurd hneg (by decide)
    · unfold safePwriteLoop at hr
      split_ifs at hr with hfull
      exact Nat.sub_pos_of_lt (not_le.1 hfull)
  | cons o os ih =>
    intro done bl
    unfold safePwriteLoop
    split_ifs with hfull
    · refine ⟨[], rfl, Nat.zero_le _, fun r hr hneg => ?_, fun h => by cases h⟩
      cases hr
      exact absurd hneg (by decide)
    · cases o with
      | eintr =>
        obtain ⟨used, hos, hle, hneg, hcut⟩ := ih done bl
        have hcount : (Outcome.eintr :: used).countP Outcome.moves =
            used.countP Outcome.moves := rfl
        refine ⟨.eintr :: used, congrArg _ hos, ?_, fun r hr h => ?_, fun hr => ?_⟩
        · rw [hcount]
          exact hle
        · exact List.mem_cons_of_mem _ (hneg r hr h)
        · rw [hcount]
          exact hcut hr
      | error =>
        exact ⟨[.error], rfl, Nat.zero_le _, fun _ _ _ => List.mem_singleton_self _,
          fun h => by cases h⟩
      | ok n =>
        obtain ⟨used, hos, hle, hneg, hcut⟩ := ih (done + min n (size - done))
          (⟨ofs + done, min n (size - done), fun i => buf (done + i)⟩ :: bl)
        have hcount : (Outcome.ok n :: used).countP Outcome.moves =
            used.countP Outcome.moves + if 0 < n then 1 else 0 := by
          rw [List.countP_cons]
          simp only [Outcome.moves, decide_eq_true_eq]
        refine ⟨.ok n :: used, congrArg _ hos, ?_, fun r hr h => ?_, fun hr => ⟨(hcut hr).1, ?_⟩⟩
        · rw [hcount]
          split_ifs <;> omega
        · exact List.mem_cons_of_mem _ (hneg r hr h)
        · have hlt := (hcut hr).2
          rw [hcount]
          split_ifs <;> omega

theorem Did.trace_eq {n : Nat} {buf : Buf} (h : Did evs ofs n buf s s') :
    s'.trace = evs ++ s.trace := congrArg Sb.trace h.same

/-- A call of the device returns zero unless one of the answers it used is to blame. -/
def Answered (c : Cfg) (s : Sb) (r : Int) (s' : Sb) : Prop :=
  (segments c).Used s s' fun used => r = 0 ∧ used.countP Outcome.moves ≤ c.segsize

/-- A call that was cut off has used all answers, and needed more. -/
def CutOff (c : Cfg) (s : Sb) (e : Stop) (s' : Sb) : Prop :=
  e = .killed ∧ s'.outcomes = [] ∧ s.outcomes.countP Outcome.moves < c.segsize

theorem bdevWrite_answered (buf : Buf) (s : Sb) (hofs : ofs < 2 ^ 63) (hsize : size ≤ c.segsize) :
    Wp (bdevWrite ofs size buf) (fun r s' => Answered c s r s') (fun e s' => CutOff c s e s') s := by
  unfold bdevWrite
  rw [wp_bind]
  obtain ⟨used, hos, hle, hneg, hcut⟩ := safePwriteLoop_used buf size ofs s.outcomes 0 s.blits
  unfold Wp safePwrite
  rw [if_neg (by omega)]
  rcases hl : safePwriteLoop buf size ofs s.outcomes 0 s.blits with ⟨_ | ret, os, bl⟩
  · rw [hl] at hcut hos
    obtain ⟨hempty, hlt⟩ := hcut rfl
    dsimp only at hos hempty
    rw [hempty, List.append_nil] at hos
    exact ⟨rfl, hempty, by rw [hos]; omega⟩
  · rw [hl] at hos hneg
    change Wp (if ret < 0 then pure (- EIO) else pure 0) _ _ _
    rw [wp_ite]
    refine ⟨fun hlt => ⟨used, hos, fun hf => ?_⟩, fun _ => ⟨used, hos, fun _ => ⟨rfl, by omega⟩⟩⟩
    exact (hf .error (hneg ret rfl hlt)).elim

theorem mtdErase_answered (s : Sb) (hmtd : c.kind = .mtd) :
    Wp (mtdErase ofs size) (fun r s' => Answered c s r s') (fun e s' => CutOff c s e s') s := by
  have hfine : ¬ Outcome.Fine c.kind .eintr := by
    rw [hmtd]
    intro h
    cases h
  have hpos := c.segsize_pos
  have hone : ∀ o : Outcome, [o].countP Outcome.moves ≤ c.segsize := fun o =>
    le_trans List.countP_le_length hpos
  unfold Wp mtdErase
  rcases hos : s.outcomes with _ | ⟨n | _ | _, os⟩
  · exact ⟨rfl, hos, by rw [hos]; exact hpos⟩
  · exact ⟨[.ok n], hos, fun _ => ⟨rfl, hone _⟩⟩
  · exact ⟨[.eintr], hos, fun hf => absurd (hf _ (List.mem_singleton_self _)) hfine⟩
  · exact ⟨[.error], hos, fun hf => (hf _ (List.mem_singleton_self _)).elim⟩

theorem devErase_answered (s : Sb) (hofs : ofs < 2 ^ 63) :
    Wp (devErase c ofs c.segsize) (fun r s' => Answered c s r s') (fun e s' => CutOff c s e s')
      s := by
  unfold devErase bdevErase
  cases hkind : c.kind with
  | bdev => exact bdevWrite_answered eraseBuf s hofs (Nat.le_refl _)
  | mtd => exact mtdErase_answered s hkind

/-- A call that was cut off was the last one. -/
theorem CutOff.breaks {e : Stop} {n : Nat} (h : CutOff c s e s')
    (hbad : failedErases s'.trace = failedErases s.trace) : (segments c).Breaks 1 n s e s' := by
  obtain ⟨rfl, hos, hlt⟩ := h
  refine ⟨⟨s.outcomes, ?_, fun _ => ⟨hbad, ?_⟩⟩, Or.inl ⟨rfl, hos⟩⟩
  · change s.outcomes = s.outcomes ++ s'.outcomes
    rw [hos, List.append_nil]
  · rw [Nat.one_mul]
    exact hlt

/-- A write takes no segments, and fails if one of the answers does. -/
theorem devWrite_draws (t : Target) (buf : Buf) (s : Sb) (hofs : ofs < 2 ^ 63)
    (hsize : size ≤ c.segsize) :
    Wp (devWrite t ofs size buf)
      (fun r s' => (segments c).Draws 1 0 s (r = 0) s' ∧ (r = 0 ∨ r = - EIO) ∧ s'.area = s.area ∧
        s'.lastseg = s.lastseg)
      (fun e s' => (segments c).Breaks 1 0 s e s') s := by
  have hanswered : Wp (devWrite t ofs size buf) (fun r s' => Answered c s r s')
      (fun e s' => CutOff c s e s') s := by
    unfold devWrite
    rw [wp_bind, wp_note]
    apply (bdevWrite_answered buf _ hofs hsize).seq
    · intro r s' h
      exact h
    · exact fun _ _ h => h
  have hdraws : ∀ {r s' b n}, Answered c s r s' →
      Did [.done ⟨t, ofs, size, buf⟩ b, .issue ⟨t, ofs, size, buf⟩] ofs n buf s s' →
      (segments c).Draws 1 0 s (r = 0) s' ∧ s'.area = s.area ∧ s'.lastseg = s.lastseg :=
    fun {r s' b n} hans h => by
      have hlast : s'.lastseg = s.lastseg := by rw [h.same]
      refine ⟨.of_used hlast ?_ (hans.imp fun used hu => ⟨hu.1, ?_⟩), by rw [h.same], hlast⟩
      · change failedErases s'.trace = _
        rw [h.trace_eq]
        rfl
      · rw [Nat.one_mul]
        exact hu.2
  apply (hanswered.and (devWrite_spec t ofs size buf s)).mono
  · rintro r s' ⟨hans, ⟨hr, h⟩ | ⟨hr, n, -, h⟩⟩
    · obtain ⟨hd, hsame⟩ := hdraws hans h
      exact ⟨hd, Or.inl hr, hsame⟩
    · obtain ⟨hd, hsame⟩ := hdraws hans h
      exact ⟨hd, Or.inr hr, hsame⟩
  · rintro e s' ⟨hcut, n, -, h⟩
    apply hcut.breaks
    rw [h.trace_eq]
    rfl

end Device

/-! ## Taking a segment -/

section Take

variable {c : Cfg} {s s1 s' : Sb} {segno : Nat}

theorem ofs_lt_max (h : segno ≤ c.noSegs) : segno * c.segsize < 2 ^ 63 := by
  have hlt := c.noSegs_lt
  calc segno * c.segsize ≤ 2 ^ 32 * 2 ^ 30 := Nat.mul_le_mul (by omega) c.segsize_le
    _ < 2 ^ 63 := by decide

theorem wp_setEntry_of_lt {entry : SegEntry} {Q : Unit → Sb → Prop} {E : Stop → Sb → Prop}
    (h : segno < c.noSegs)
    (hQ : Q () { s with segmentEntry := Function.update s.segmentEntry segno entry }) :
    Wp (setEntry c segno entry) Q E s := by
  unfold setEntry
  rw [if_pos h]
  exact hQ

/-- A turn of `get_segment` that fails takes a segment and counts it. -/
theorem draws_badTurn (hlast : s'.lastseg = s.lastseg + 1)
    (htrace : s'.trace = .erase s.lastseg false :: s.trace)
    (hno : (segments c).Used s s' fun _ => False) : (segments c).Draws 0 0 s True s' where
  used := hno.imp fun _ h => h.elim
  count _ := by
    change s'.lastseg + failedErases s.trace = s.lastseg + failedErases s'.trace + 0
    rw [hlast, htrace, failedErases]
    omega

/-- The loop takes one good segment, if its turns are more than the answers left. -/
theorem getSegmentLoop_draws (hc : c.noSegs < 2 ^ 32 - 1) : ∀ (turns : Nat) (s : Sb),
    s.outcomes.length < turns → s.lastseg ≤ c.noSegs →
    Wp (getSegmentLoop c turns)
      (fun segno s' => (segments c).Draws 1 1 s True s' ∧ segno < c.noSegs ∧
        s'.lastseg ≤ c.noSegs)
      (fun e s' => (segments c).Breaks 1 1 s e s') s := by
  intro turns
  induction turns with
  | zero => exact fun s hlen => absurd hlen (Nat.not_lt_zero _)
  | succ turns ih =>
    intro s hlen hcount
    have hmod : (s.lastseg + 1) % 2 ^ 32 = s.lastseg + 1 := Nat.mod_eq_of_lt (by omega)
    unfold getSegmentLoop
    rw [wp_bind, wp_get, wp_bind, wp_set, wp_ite, hmod]
    refine ⟨fun hfull => ?_, fun hguard => ?_⟩
    · -- the segments are at their end
      refine ⟨.none rfl ⟨rfl, ?_⟩, Or.inr ⟨rfl, ?_⟩⟩
      · rw [Nat.one_mul]
        exact c.segsize_pos
      · change c.noSegs + failedErases s.trace < s.lastseg + failedErases s.trace + 1
        omega
    have hofs := ofs_lt_max hcount
    apply ((devErase_answered _ hofs).and (devErase_spec c _ c.segsize _)).seq
    · rintro err s1 ⟨⟨used, hos, hfine⟩, n, -, hw, -⟩
      have hsame := hw.same
      have htrace : s1.trace = s.trace := by rw [hsame]
      have hlast : s1.lastseg = s.lastseg + 1 := by rw [hsame]
      change s.outcomes = used ++ s1.outcomes at hos
      rw [wp_bind, wp_note, wp_ite]
      refine ⟨fun herr => ?_, fun herr => ?_⟩
      · rw [wp_bind]
        apply wp_setEntry_of_lt (by omega)
        have hne : used ≠ [] := by
          rintro rfl
          exact herr (hfine fun o ho => absurd ho List.not_mem_nil).1
        have hshort : s1.outcomes.length < s.outcomes.length := by
          rw [hos, List.length_append]
          have := List.length_pos_iff.2 hne
          omega
        set s2 : Sb := { s1 with
          segmentEntry := Function.update s1.segmentEntry s.lastseg ⟨badseg, reserved⟩
          trace := .erase s.lastseg (decide (err = 0)) :: s1.trace } with hs2
        have hlast2 : s2.lastseg = s.lastseg + 1 := hlast
        have hlen2 : s2.outcomes.length < s.outcomes.length := hshort
        have hturn : (segments c).Draws 0 0 s True s2 := by
          apply draws_badTurn hlast2
          · rw [hs2, decide_eq_false herr]
            exact congrArg (_ :: ·) htrace
          · exact ⟨used, hos, fun hf => herr (hfine hf).1⟩
        apply (ih s2 (by omega) (by omega)).mono
        · rintro segno s3 ⟨h, hlt⟩
          have hseq := hturn.seq trivial h
          rw [Nat.zero_add] at hseq
          exact ⟨hseq, hlt⟩
        · intro e s3 h
          have hseq := hturn.breaks trivial h
          rwa [Nat.zero_add] at hseq
      · rw [wp_bind, wp_note, wp_pure]
        have htrue : decide (err = 0) = true := decide_eq_true (not_not.1 herr)
        refine ⟨⟨⟨used, hos, fun hf => ⟨trivial, ?_, ?_⟩⟩, fun _ => ?_⟩, by omega,
          show s1.lastseg ≤ c.noSegs by omega⟩
        · change failedErases (.erase s.lastseg (decide (err = 0)) :: s1.trace) = _
          rw [htrue, htrace]
          rfl
        · rw [Nat.one_mul]
          exact (hfine hf).2
        · change s1.lastseg + failedErases s.trace =
            s.lastseg + failedErases (.erase s.lastseg (decide (err = 0)) :: s1.trace) + 1
          rw [htrue, hlast, htrace]
          change s.lastseg + 1 + failedErases s.trace = s.lastseg + failedErases s.trace + 1
          omega
    · rintro e s1 ⟨hcut, n, -, hw⟩
      have hcut : CutOff c s e s1 := hcut
      apply hcut.breaks
      rw [hw.same]

theorem getSegment_draws (hc : c.noSegs < 2 ^ 32 - 1) (hcount : s.lastseg ≤ c.noSegs) :
    Wp (getSegment c)
      (fun segno s' => (segments c).Draws 1 1 s True s' ∧ segno < c.noSegs ∧
        s'.lastseg ≤ c.noSegs)
      (fun e s' => (segments c).Breaks 1 1 s e s') s := by
  unfold getSegment
  rw [wp_bind, wp_get]
  exact getSegmentLoop_draws hc _ s (Nat.lt_succ_self _) hcount

end Take

/-! ## Areas -/

/-- The blocks that an area has room for. -/
def Area.room (c : Cfg) (a : Area) : Nat :=
  if a.buf.isSome then (c.segsize - a.usedBytes) / (objectHeadersize + blocksize) else 0

/-- The blocks that a segment has room for. -/
def Cfg.perSegment (c : Cfg) : Nat :=
  (c.segsize - segmentHeadersize) / (objectHeadersize + blocksize)

/-- The segments in use are those of the table. -/
structure Tabled (c : Cfg) (s : Sb) : Prop where
  counter : s.lastseg ≤ c.noSegs
  segno : ∀ l, (s.area l).buf.isSome → (s.area l).segno < c.noSegs

/-- Area `l` is open, with `n` bytes in use, and the others are as before. -/
structure Filled (c : Cfg) (l n : Nat) (s s' : Sb) : Prop where
  tabled : Tabled c s'
  usedBytes : (s'.area l).usedBytes = n
  buf : (s'.area l).buf.isSome
  others : ∀ l', l' ≠ l → s'.area l' = s.area l'

section Areas

variable {c : Cfg} {s s1 s' : Sb} {l n : Nat}

theorem Cfg.perSegment_pos (c : Cfg) : 0 < c.perSegment := by
  have htwo := c.two_blocks_le
  unfold Cfg.perSegment
  apply Nat.div_pos
  · simp only [segmentHeadersize, objectHeadersize, blocksize, blockshift]
    omega
  · decide

/-- There is room for a block when one fits behind what is in use. -/
theorem Area.room_pos {a : Area} (h : a.buf.isSome) :
    0 < a.room c ↔ a.usedBytes + objectHeadersize + blocksize ≤ c.segsize := by
  unfold Area.room
  rw [if_pos h, Nat.div_pos_iff]
  simp only [objectHeadersize, blocksize, blockshift]
  omega

theorem Area.room_none {a : Area} (h : a.buf.isSome = false) : a.room c = 0 := by
  unfold Area.room
  rw [h]
  rfl

theorem Tabled.same (h : Tabled c s) (harea : s'.area = s.area) (hlast : s'.lastseg = s.lastseg) :
    Tabled c s' where
  counter := by
    rw [hlast]
    exact h.counter
  segno := by
    rw [harea]
    exact h.segno

theorem Filled.of_area (harea : s1.area = s.area) (hf : Filled c l n s1 s') :
    Filled c l n s s' :=
  ⟨hf.tabled, hf.usedBytes, hf.buf, fun l' hl' => by rw [hf.others l' hl', harea]⟩

/-- `__init_area` takes one segment, with one call. -/
theorem initArea'_draws (hc : c.noSegs < 2 ^ 32 - 1) (h : Tabled c s) :
    Wp (initArea' c l)
      (fun _ s' => (segments c).Draws 1 1 s True s' ∧ Filled c l segmentHeadersize s s')
      (fun e s' => (segments c).Breaks 1 1 s e s') s := by
  unfold initArea'
  apply ((getSegment_draws hc h.counter).and (getSegment_spec c s)).seq
  · rintro segno s2 ⟨⟨hs, hseg, hcount⟩, s1, hbad, ht⟩
    have harea : s2.area = s.area :=
      ((SameStore.of_badTurns hbad).trans ht.sameStore).area
    rw [wp_bind, wp_setArea, wp_note]
    refine ⟨?_, ⟨hcount, fun l' hl' => ?_⟩, ?_, ?_, fun l' hl' => ?_⟩
    · have hopen : (segments c).Draws 0 0 s2 True { s2 with
          area := Function.update s2.area l (openedArea c l segno)
          trace := .opened l segno :: s2.trace } := .of_same rfl rfl rfl
      exact hs.seq trivial hopen
    · dsimp only at hl' ⊢
      rw [Function.update_apply] at hl' ⊢
      split_ifs at hl' ⊢ with heq
      · exact hseg
      · rw [harea] at hl' ⊢
        exact h.segno l' hl'
    · dsimp only
      rw [Function.update_self]
    · dsimp only
      rw [Function.update_self]
      rfl
    · dsimp only
      rw [Function.update_of_ne hl', harea]
  · exact fun _ _ h => h.1

/-- `finish_area` makes one call, and sets the entry of a segment of the table. -/
theorem finishArea_draws (h : Tabled c s) (hopen : (s.area l).buf.isSome) {final : Bool}
    {Q : Int → Sb → Prop} {E : Stop → Sb → Prop}
    (hnext : ∀ s1, (segments c).Draws 1 0 s True s1 → s1.area = s.area → s1.lastseg = s.lastseg →
      Wp (if final then pure 0 else do initArea' c l; pure 0) Q E s1)
    (hfail : ∀ s1, (segments c).Draws 1 0 s False s1 → Q (- EIO) s1)
    (hstop : ∀ e s1, (segments c).Breaks 1 0 s e s1 → E e s1) :
    Wp (finishArea c l final) Q E s := by
  obtain ⟨buf, hbuf⟩ := Option.isSome_iff_exists.1 hopen
  have hseg := h.segno l hopen
  unfold finishArea
  rw [wp_bind, wp_get]
  dsimp only
  rw [hbuf]
  apply (devWrite_draws _ _ s (ofs_lt_max (Nat.le_of_lt hseg)) (Nat.le_refl _)).seq
  · rintro err s1 ⟨hs, rfl | rfl, harea, hlast⟩
    · rw [if_neg (by decide), wp_bind]
      apply wp_setEntry_of_lt hseg
      rw [wp_bind, wp_note]
      have hnote : (segments c).Draws 0 0 s1 True { s1 with
          segmentEntry := Function.update s1.segmentEntry (s.area l).segno
            (areaEntry l (s.area l))
          trace := .closed l (s.area l).segno (s.segmentEntry (s.area l).segno)
            (areaEntry l (s.area l)) :: s1.trace } := .of_same rfl rfl rfl
      exact hnext _ (hs.seq rfl hnote) harea hlast
    · rw [if_pos (by decide)]
      exact hfail s1 (hs.failed (by decide) id)
  · exact hstop

end Areas

/-! ## Objects -/

/-- The segments that the next object of an area takes, and the place where it goes. -/
def Area.needs (c : Cfg) (a : Area) : Nat := if 0 < a.room c then 0 else 1

def Area.next (c : Cfg) (a : Area) : Nat := if 0 < a.room c then a.usedBytes else segmentHeadersize

/-- An object of `size` bytes is put into area `l`. -/
structure Puts (c : Cfg) (l size : Nat) (s : Sb) (good : Prop) (s' : Sb) : Prop where
  spends : Spends c ((s.area l).needs c) s good s'
  filled : good → Filled c l ((s.area l).next c + size) s s'

/-- Nothing has changed that has to do with segments. -/
structure Idle (c : Cfg) (s s' : Sb) : Prop where
  spends : Spends c 0 s True s'
  area : s'.area = s.area
  lastseg : s'.lastseg = s.lastseg

section Objects

variable {c : Cfg} {s s1 s' : Sb} {l n size : Nat} {good : Prop}

/-- The first object of an area takes a segment. -/
theorem Area.needs_none {a : Area} (h : a.buf.isSome = false) : a.needs c = 1 := by
  unfold Area.needs
  rw [Area.room_none h]
  rfl

theorem Idle.refl (c : Cfg) (s : Sb) : Idle c s s := ⟨.refl s, rfl, rfl⟩

theorem Idle.trans (h : Idle c s s1) (h1 : Idle c s1 s') : Idle c s s' :=
  ⟨h.spends.seq trivial h1.spends, h1.area.trans h.area, h1.lastseg.trans h.lastseg⟩

theorem Idle.tabled (h : Idle c s s') (ht : Tabled c s) : Tabled c s' := ht.same h.area h.lastseg

/-- Only inodes have changed. -/
theorem Idle.of_inodes (tree : OrdMap Nat Inode) (used : Nat) (c : Cfg) (s : Sb) :
    Idle c s { s with inoTree := tree, usedBytes := used } :=
  ⟨.of_same rfl rfl rfl, rfl, rfl⟩

theorem findOrCreateInode_idle (c : Cfg) (ino : Nat) (s : Sb) {E : Stop → Sb → Prop} :
    Wp (findOrCreateInode ino) (fun _ s' => Idle c s s') E s := by
  unfold findOrCreateInode
  rw [wp_bind, wp_get]
  cases s.inoTree.get ino with
  | none => exact .of_inodes _ _ c s
  | some i => exact .refl c s

theorem modifyInode_idle (c : Cfg) (ino : Nat) (f : Inode → Inode) (s : Sb)
    {E : Stop → Sb → Prop} : Wp (modifyInode ino f) (fun _ s' => Idle c s s') E s := by
  unfold modifyInode
  rw [wp_modify]
  cases s.inoTree.get ino with
  | none => exact .refl c s
  | some i => exact .of_inodes _ _ c s

theorem takeLast_idle (c : Cfg) (ino level : Nat) (s : Sb) {E : Stop → Sb → Prop} :
    Wp (takeLast ino level) (fun _ s' => Idle c s s') E s := by
  unfold takeLast
  apply (findOrCreateInode_idle c ino s).bind
  intro i s1 h1
  dsimp only
  cases (i.blockTree level).get (((i.blockTree level).last.map Prod.fst).getD 0) with
  | none => exact h1
  | some block =>
    apply (modifyInode_idle c ino _ s1).bind
    exact fun _ _ h2 => h1.trans h2

theorem Filled.idle (hf : Filled c l n s s1) (h : Idle c s1 s') : Filled c l n s s' where
  tabled := h.tabled hf.tabled
  usedBytes := by
    rw [h.area]
    exact hf.usedBytes
  buf := by
    rw [h.area]
    exact hf.buf
  others l' hl' := by rw [h.area, hf.others l' hl']

theorem Puts.of_idle (h : Idle c s s1) (hp : Puts c l size s1 good s') :
    Puts c l size s good s' := by
  have hs := h.spends.seq trivial hp.spends
  rw [h.area, Nat.zero_add] at hs
  refine ⟨hs, fun hg => ?_⟩
  have hf := Filled.of_area h.area (hp.filled hg)
  rwa [h.area] at hf

theorem Puts.idle (hp : Puts c l size s good s1) (hg : good) (h : Idle c s1 s') :
    Puts c l size s True s' :=
  ⟨hp.spends.seq hg h.spends, fun _ => (hp.filled hg).idle h⟩

theorem Puts.imp {good' : Prop} (hp : Puts c l size s good s') (h : good → good')
    (hback : good' → good) : Puts c l size s good' s' :=
  ⟨hp.spends.imp h hback, fun hg => hp.filled (hback hg)⟩

theorem Puts.failed {good' : Prop} {k : Nat} (h : (segments c).Draws k n s good s') (hg : ¬ good) (hg' : ¬ good') :
    Puts c l size s good' s' :=
  ⟨h.failed hg hg', fun h => absurd h hg'⟩

theorem Idle.stops {e : Stop} (h : Idle c s s1) (h1 : Stops c n s1 e s') : Stops c n s e s' := by
  rw [← Nat.zero_add n]
  exact h.spends.stops trivial h1

/-- The object is copied behind what is in use. -/
theorem puts_append {o : Obj} (h : Filled c o.area n s s1)
    (hs : Spends c ((s.area o.area).needs c) s True s1) (hn : n = (s.area o.area).next c) :
    Puts c o.area o.size s True (appendTo c o s1) := by
  have hcopy : Spends c 0 s1 True (appendTo c o s1) :=
    .of_same rfl rfl rfl
  have hself : (appendTo c o s1).area o.area = copyObj c o (s1.area o.area) :=
    Function.update_self _ _ _
  have hother : ∀ l', l' ≠ o.area → (appendTo c o s1).area l' = s1.area l' := fun l' hl' =>
    Function.update_of_ne hl' _ _
  have hbuf : (copyObj c o (s1.area o.area)).buf.isSome := by
    unfold copyObj copybuf
    dsimp only
    rw [Option.isSome_map, Option.isSome_map]
    exact h.buf
  refine ⟨hs.seq trivial hcopy, fun _ => ⟨⟨h.tabled.counter, fun l' hl' => ?_⟩, ?_, ?_, ?_⟩⟩
  · by_cases heq : l' = o.area
    · rw [heq, hself]
      exact h.tabled.segno _ h.buf
    · rw [hother l' heq] at hl' ⊢
      exact h.tabled.segno l' hl'
  · rw [hself, ← hn, ← h.usedBytes]
    unfold copyObj copybuf Obj.size
    dsimp only
    rw [objectHeader_length, peek_length, Nat.add_assoc]
  · rw [hself]
    exact hbuf
  · intro l' hl'
    rw [hother l' hl', h.others l' hl']

/-- `logfs_segment_write` puts one object into its area. -/
theorem logfsSegmentWrite_puts (hc : c.noSegs < 2 ^ 32 - 1) (data : Buf) (type : ObjType)
    (ino bix level : Nat) (h : Tabled c s) (hl : areaOf ino level < noAreas) :
    Wp (logfsSegmentWrite c data type ino bix level)
      (fun r s' => Puts c (areaOf ino level) (objectHeadersize + objLen type) s (0 ≤ r) s')
      (fun e s' => Stops c ((s.area (areaOf ino level)).needs c) s e s') s := by
  unfold logfsSegmentWrite
  generalize areaOf ino level = l at hl ⊢
  dsimp only
  rw [if_neg (not_not.2 hl)]
  -- an object goes to an area that has room
  have happend : ∀ s1, Spends c ((s.area l).needs c) s True s1 →
      Filled c l ((s.area l).next c) s s1 →
      Wp (do
        let s ← get
        let a := s.area l
        let o : Obj := ⟨l, a.segno, a.usedBytes, type, ino, bix, level, data⟩
        setArea l (copybuf (copybuf a (objectHeader c.crc32 type ino bix
          (peek data 0 (objLen type)))) (peek data 0 (objLen type)))
        noteEvent (.append o)
        growInode ino (objectHeadersize + objLen type)
        pure (o.ofs c : Int))
        (fun r s' => Puts c l (objectHeadersize + objLen type) s (0 ≤ r) s')
        (fun e s' => Stops c ((s.area l).needs c) s e s') s1 := by
    intro s1 hs hf
    rw [wp_bind, wp_get, wp_bind, wp_setArea, wp_bind, wp_note, wp_bind]
    apply wp_growInode
    rw [wp_pure]
    let o : Obj :=
      ⟨l, (s1.area l).segno, (s1.area l).usedBytes, type, ino, bix, level, data⟩
    apply (puts_append (o := o) hf hs rfl).imp
    · exact fun _ => Int.natCast_nonneg _
    · exact fun _ => trivial
  rw [wp_bind]
  unfold initArea
  rw [wp_bind, wp_get, wp_ite]
  refine ⟨fun hopen => ?_, fun hclosed => ?_⟩
  · -- the area is open, and is written if it is full
    have hpos := Area.room_pos (c := c) hopen
    rw [wp_pure, wp_bind, wp_get, wp_ite]
    refine ⟨fun hfull => ?_, fun hroom => ?_⟩
    · have hneeds : (s.area l).needs c = 1 := if_neg (mt hpos.1 (by omega))
      have hnext : (s.area l).next c = segmentHeadersize := if_neg (mt hpos.1 (by omega))
      rw [wp_bind]
      apply finishArea_draws h hopen
      · intro s1 hs1 harea hlast
        rw [if_neg (by decide)]
        apply (initArea'_draws hc (h.same harea hlast)).seq
        · rintro - s2 ⟨hs2, hf⟩
          rw [wp_pure, if_neg (by decide)]
          apply happend s2
          · rw [hneeds]
            exact hs1.seq trivial hs2
          · rw [hnext]
            exact hf.of_area harea
        · intro e s2 hs2
          rw [hneeds]
          exact hs1.breaks trivial hs2
      · intro s1 hs1
        rw [if_pos (by decide)]
        exact .failed hs1 id (by decide)
      · intro e s1 hs1
        rw [hneeds]
        exact hs1.mono (by decide) (Nat.zero_le 1)
    · have hroom : 0 < (s.area l).room c := hpos.2 (by omega)
      rw [wp_bind, wp_pure, if_neg (by decide)]
      apply happend s
      · unfold Area.needs
        rw [if_pos hroom]
        exact .refl s
      · refine ⟨h, ?_, hopen, fun _ _ => rfl⟩
        unfold Area.next
        rw [if_pos hroom]
  · -- the area gets its first segment
    have hnone : (s.area l).room c = 0 := Area.room_none (by simpa using hclosed)
    have hneeds : (s.area l).needs c = 1 := if_neg (by omega)
    have hnext : (s.area l).next c = segmentHeadersize := if_neg (by omega)
    apply (initArea'_draws hc h).mono
    · rintro - s1 ⟨hs1, hf⟩
      have htwo := c.two_blocks_le
      rw [wp_bind, wp_get, if_neg, wp_bind, wp_pure, if_neg (by decide)]
      · apply happend s1
        · rw [hneeds]
          exact hs1.mono (by decide)
        · rw [hnext]
          exact hf
      · rw [hf.usedBytes]
        simp only [segmentHeadersize, objectHeadersize, blocksize, blockshift]
        omega
    · intro e s1 hs1
      rw [hneeds]
      exact hs1.mono (by decide) (Nat.le_refl 1)

end Objects

/-! ## Files -/

section Files

variable {c : Cfg} {s s1 s' : Sb} {ino bix level : Nat} {type : ObjType} {buf : Buf}

theorem writeDirect_puts (hc : c.noSegs < 2 ^ 32 - 1) (h : Tabled c s)
    (hl : areaOf ino 0 < noAreas) :
    Wp (writeDirect c ino bix type buf)
      (fun r s' => Puts c (areaOf ino 0) (objectHeadersize + objLen type) s (r = 0) s')
      (fun e s' => Stops c ((s.area (areaOf ino 0)).needs c) s e s') s := by
  unfold writeDirect
  apply (logfsSegmentWrite_puts hc buf type ino bix 0 h hl).bind
  intro r s1 h1
  rw [wp_ite]
  refine ⟨fun hneg => .failed h1.spends (by omega) (by omega), fun hpos => ?_⟩
  apply (modifyInode_idle c ino _ s1).bind
  intro _ s2 h2
  exact (h1.idle (not_lt.1 hpos) h2).imp (fun _ => rfl) fun _ => trivial

theorem writeLoop_puts (hc : c.noSegs < 2 ^ 32 - 1) (h : Tabled c s) (hlevel : level + 1 < 4)
    (hl : areaOf ino level < noAreas) :
    Wp (writeLoop c ino bix level type buf)
      (fun r s' => Puts c (areaOf ino level) (objectHeadersize + objLen type) s (r = 0) s')
      (fun e s' => Stops c ((s.area (areaOf ino level)).needs c) s e s') s := by
  unfold writeLoop
  rw [if_neg (not_not.2 hlevel)]
  apply (modifyInode_idle c ino _ s).bind
  intro _ s1 h1
  apply (logfsSegmentWrite_puts hc buf type ino bix level (h1.tabled h) hl).seq
  · intro r s2 h2
    rw [wp_ite]
    refine ⟨fun hneg => .of_idle h1 (.failed h2.spends (by omega) (by omega)), fun hpos => ?_⟩
    apply (modifyInode_idle c ino _ s2).bind
    intro _ s3 h3
    exact .of_idle h1 ((h2.idle (not_lt.1 hpos) h3).imp (fun _ => rfl) fun _ => trivial)
  · intro e s2 h2
    rw [← h1.area]
    exact h1.stops h2

/-- `logfs_file_write` puts one object into the area of the level. -/
theorem logfsFileWrite_puts (hc : c.noSegs < 2 ^ 32 - 1) (h : Tabled c s) (hlevel : level + 1 < 4)
    (hl : areaOf ino level < noAreas) :
    Wp (logfsFileWrite c ino bix level type buf)
      (fun r s' => Puts c (areaOf ino level) (objectHeadersize + objLen type) s (r = 0) s')
      (fun e s' => Stops c ((s.area (areaOf ino level)).needs c) s e s') s := by
  unfold logfsFileWrite
  apply (findOrCreateInode_idle c ino s).bind
  intro _ s1 h1
  have hstop : ∀ s2, Idle c s1 s2 → ∀ e s', Stops c ((s2.area (areaOf ino level)).needs c) s2 e s' →
      Stops c ((s.area (areaOf ino level)).needs c) s e s' := fun s2 h2 e s' h' => by
    have h12 := h1.trans h2
    rw [h12.area] at h'
    exact h12.stops h'
  rw [wp_ite]
  refine ⟨fun ⟨h0, _⟩ => ?_, fun _ => ?_⟩
  · subst h0
    exact (writeDirect_puts hc (h1.tabled h) hl).mono (fun _ _ => .of_idle h1)
      (hstop s1 (.refl c s1))
  · apply (modifyInode_idle c ino _ s1).bind
    intro _ s2 h2
    exact (writeLoop_puts hc ((h1.trans h2).tabled h) hlevel hl).mono
      (fun _ _ => .of_idle (h1.trans h2)) (hstop s2 h2)

end Files

/-! ## Several blocks -/

/-- Blocks have been put into area `l`, which took `n` segments. -/
structure Gathers (c : Cfg) (l n : Nat) (s : Sb) (good : Prop) (s' : Sb) : Prop where
  spends : Spends c n s good s'
  tabled : good → Tabled c s'
  others : good → ∀ l', l' ≠ l → s'.area l' = s.area l'

/-- The segments that `n` blocks take, put into an area. -/
def Area.takes (c : Cfg) (a : Area) (n : Nat) : Nat := bins c.perSegment (a.room c) n

section Blocks

variable {c : Cfg} {s s1 s' : Sb} {l n : Nat} {good good' : Prop}

theorem Area.takes_none {a : Area} (h : a.buf.isSome = false) :
    a.takes c n = bins c.perSegment 0 n := by
  unfold Area.takes
  rw [Area.room_none h]

theorem Area.takes_zero (a : Area) : a.takes c 0 = 0 := bins_zero c.perSegment_pos

/-- There was nothing to put there. -/
theorem Gathers.done (h : Tabled c s) (hn : n = 0) (hg : good) :
    Gathers c l ((s.area l).takes c n) s good s := by
  rw [hn, Area.takes_zero]
  exact ⟨(Supply.Draws.refl s).returned trivial hg, fun _ => h, fun _ _ _ => rfl⟩

theorem Gathers.failed {m : Nat} (h : Spends c m s good s') (hg : ¬ good) (hg' : ¬ good') :
    Gathers c l n s good' s' :=
  ⟨h.failed hg hg', fun h => absurd h hg', fun h => absurd h hg'⟩

/-- A block leaves room for one block less. -/
theorem Filled.room (h : Filled c l ((s.area l).next c + (objectHeadersize + objLen .block)) s s') :
    (s'.area l).room c =
      if 0 < (s.area l).room c then (s.area l).room c - 1 else c.perSegment - 1 := by
  have hsub : ∀ n, n + (objectHeadersize + blocksize) ≤ c.segsize →
      (c.segsize - (n + (objectHeadersize + blocksize))) / (objectHeadersize + blocksize) =
        (c.segsize - n) / (objectHeadersize + blocksize) - 1 := fun n hn => by
    rw [← Nat.sub_sub, Nat.sub_eq_of_eq_add (Nat.div_eq_sub_div (by decide) (by omega))]
  have htwo := c.two_blocks_le
  unfold Area.room
  rw [if_pos h.buf, h.usedBytes]
  change (c.segsize - ((s.area l).next c + (objectHeadersize + blocksize))) / _ = _
  unfold Area.next
  by_cases hroom : 0 < (s.area l).room c
  · have hopen : (s.area l).buf.isSome := by
      by_contra hno
      rw [Area.room_none (by simpa using hno)] at hroom
      exact absurd hroom (Nat.lt_irrefl 0)
    have hfit := (Area.room_pos hopen).1 hroom
    rw [if_pos hroom, if_pos hopen]
    unfold Area.room at hroom
    rw [if_pos hopen] at hroom
    rw [if_pos hroom, hsub _ (by omega)]
  · rw [if_neg hroom]
    unfold Area.room at hroom
    rw [if_neg hroom, hsub]
    · rfl
    · simp only [segmentHeadersize, objectHeadersize, blocksize, blockshift]
      omega

/-- One block and then `n` more. -/
theorem Filled.takes (h : Filled c l ((s.area l).next c + (objectHeadersize + objLen .block)) s s')
    (n : Nat) : (s.area l).takes c (n + 1) = (s.area l).needs c + (s'.area l).takes c n := by
  unfold Area.takes Area.needs
  rw [h.room, bins_succ c.perSegment_pos]

theorem Puts.gathers (h : Puts c l (objectHeadersize + objLen .block) s good s1) (hg : good)
    (h1 : Gathers c l ((s1.area l).takes c n) s1 good' s') :
    Gathers c l ((s.area l).takes c (n + 1)) s good' s' := by
  have hf := h.filled hg
  rw [hf.takes]
  refine ⟨h.spends.seq hg h1.spends, h1.tabled, fun hg' l' hl' => ?_⟩
  rw [h1.others hg' l' hl', hf.others l' hl']

theorem Puts.stops {e : Stop} (h : Puts c l (objectHeadersize + objLen .block) s good s1)
    (hg : good) (h1 : Stops c ((s1.area l).takes c n) s1 e s') :
    Stops c ((s.area l).takes c (n + 1)) s e s' := by
  rw [(h.filled hg).takes]
  exact h.spends.stops hg h1

theorem Area.needs_le (a : Area) : a.needs c ≤ a.takes c (n + 1) := by
  unfold Area.takes Area.needs
  rw [bins_succ c.perSegment_pos]
  exact Nat.le_add_right _ _

end Blocks

end Logfs.Mkfs
