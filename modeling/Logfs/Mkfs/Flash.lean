import Logfs.Mkfs.Census

/-!
# Writing to flash

A byte of flash can be written once after its block was erased.  Every area, the
journal and the first superblock are written to segments that were erased for
them, each in one write; the second superblock fits in the segment that was
erased for it as long as the write size is at most 4 KiB.
-/

namespace Logfs.Mkfs

open Relation (ReflTransGen)

/-! ## What has been erased -/

/-- The byte was erased, and not written since. -/
def freshAt (c : Cfg) (x : Nat) : List Event → Bool
  | [] => false
  | .erase i ok :: tr => if InSegment c i x then ok else freshAt c x tr
  | .scan i ok :: tr => if InSegment c i x then ok else freshAt c x tr
  | .issue w :: tr => if w.ofs ≤ x ∧ x < w.ofs + w.size then false else freshAt c x tr
  | _ :: tr => freshAt c x tr

/-- All writes were to such bytes. -/
def Disciplined (c : Cfg) : List Event → Prop
  | [] => True
  | .issue w :: tr =>
    (∀ x, w.ofs ≤ x → x < w.ofs + w.size → freshAt c x tr = true) ∧ Disciplined c tr
  | _ :: tr => Disciplined c tr

def FreshSeg (c : Cfg) (i : Nat) (s : Sb) : Prop := ∀ x, InSegment c i x → freshAt c x s.trace = true

/-- The segments of open areas are still erased. -/
structure Unwritten (c : Cfg) (s : Sb) : Prop where
  disciplined : Disciplined c s.trace
  opened : ∀ l, isOpen l s.trace = true → FreshSeg c (s.area l).segno s

section Steps

variable {c : Cfg} {s s1 s' : Sb} {i l n segno x : Nat} {tr : List Event} {w : DevWrite} {ok : Bool}

theorem freshAt_erase : freshAt c x (.erase i ok :: tr) =
    if InSegment c i x then ok else freshAt c x tr := rfl

theorem freshAt_issue : freshAt c x (.done w ok :: .issue w :: tr) =
    if w.ofs ≤ x ∧ x < w.ofs + w.size then false else freshAt c x tr := rfl

/-- Other segments are as fresh as before. -/
theorem freshAt_other (hx : InSegment c i x) (hne : i ≠ segno) :
    freshAt c x (.erase segno ok :: tr) = freshAt c x tr := by
  rw [freshAt_erase, if_neg]
  exact fun h => hne (hx.unique h)

theorem BadTurn.freshAt (h : BadTurn c s s') (hx : InSegment c i x) (hne : i ≠ s.lastseg) :
    freshAt c x s'.trace = freshAt c x s.trace := by
  rw [h.same]
  exact freshAt_other hx hne

theorem Taken.freshAt (h : Taken c segno s s1) (hx : InSegment c i x) :
    freshAt c x s1.trace = if i = s.lastseg then true else freshAt c x s.trace := by
  rw [h.same]
  change Mkfs.freshAt c x (.erase segno true :: s.trace) = _
  rw [freshAt_erase, h.segno_eq]
  refine if_congr ⟨fun hin => hx.unique hin, ?_⟩ rfl rfl
  rintro rfl
  exact hx

/-- A step leaves alone a segment that it does not try and that is not of an open area. -/
theorem Step.freshAt (h : Step c s s') (hx : InSegment c i x)
    (htried : i = s.lastseg → s'.lastseg = s.lastseg)
    (harea : ∀ l, isOpen l s.trace = true → (s.area l).segno ≠ i) :
    freshAt c x s'.trace = freshAt c x s.trace := by
  have htaken : ∀ segno s1, Taken c segno s s1 → segno < c.noSegs → s'.lastseg = s1.lastseg →
      Mkfs.freshAt c x s1.trace = Mkfs.freshAt c x s.trace := fun _ _ ht hseg hlast => by
    have hnext := ht.lastseg hseg
    rw [ht.freshAt hx, if_neg]
    intro heq
    have := htried heq
    omega
  cases h with
  | create => rfl
  | modify => rfl
  | bad h =>
    apply h.freshAt hx
    intro heq
    have hsame := htried heq
    rw [h.same] at hsame
    exact absurd hsame (Nat.succ_ne_self _)
  | @reserve segno s1 _ h hseg => exact htaken segno s1 h hseg rfl
  | @fresh l segno s1 _ _ h hseg => exact htaken segno s1 h hseg rfl
  | append => rfl
  | @close l buf s1 hw _ h =>
    rw [h.same]
    change Mkfs.freshAt c x (.done (areaWrite c l (s.area l) buf) true ::
      .issue (areaWrite c l (s.area l) buf) :: s.trace) = _
    rw [freshAt_issue, if_neg]
    exact fun hin => harea l hw.opened (InSegment.unique (c := c) hin hx)

/-- The write of an area goes to its segment, which was still erased. -/
theorem Unwritten.issue {buf : Buf} (h : Unwritten c s) (hw : Writes l buf s) :
    Disciplined c (.issue (areaWrite c l (s.area l) buf) :: s.trace) :=
  ⟨fun x h1 h2 => h.opened l hw.opened x ⟨h1, h2⟩, h.disciplined⟩

theorem Step.unwritten (h : Step c s s') (hc : Counted c s) (hu : Unwritten c s) :
    Unwritten c s' := by
  cases h with
  | create => exact ⟨hu.disciplined, hu.opened⟩
  | modify => exact ⟨hu.disciplined, hu.opened⟩
  | bad h =>
    constructor
    · rw [h.same]
      exact hu.disciplined
    · intro l hl x hx
      rw [h.sameAreas.isOpen] at hl
      rw [h.sameAreas.area] at hx
      rw [h.freshAt hx (Nat.ne_of_lt (hc.open_lt l hl))]
      exact hu.opened l hl x hx
  | @reserve segno s1 _ h =>
    constructor
    · dsimp only
      rw [h.same]
      exact hu.disciplined
    · intro l hl x hx
      have hl := (h.sameAreas.isOpen l).symm.trans hl
      dsimp only at hx ⊢
      rw [h.sameAreas.area] at hx
      rw [h.freshAt hx, if_neg (Nat.ne_of_lt (hc.open_lt l hl))]
      exact hu.opened l hl x hx
  | @fresh l segno s1 _ _ h =>
    constructor
    · dsimp only
      rw [h.same]
      exact hu.disciplined
    · intro l' hl' x hx
      dsimp only [isOpen] at hl' hx ⊢
      change Mkfs.freshAt c x s1.trace = true
      by_cases heq : l = l'
      · subst heq
        rw [Function.update_self, openedArea] at hx
        rw [h.freshAt hx, if_pos h.segno_eq]
      · rw [if_neg heq, h.sameAreas.isOpen] at hl'
        rw [Function.update_of_ne (Ne.symm heq), h.sameAreas.area] at hx
        rw [h.freshAt hx, if_neg (Nat.ne_of_lt (hc.open_lt l' hl'))]
        exact hu.opened l' hl' x hx
  | @append o h =>
    refine ⟨hu.disciplined, fun l hl x hx => hu.opened l hl x ?_⟩
    unfold appendTo at hx
    dsimp only at hx
    rw [Function.update_apply] at hx
    split_ifs at hx with heq
    · rw [heq]
      exact hx
    · exact hx
  | @close l buf s1 hw _ h =>
    have htrace : s1.trace = .done (areaWrite c l (s.area l) buf) true ::
        .issue (areaWrite c l (s.area l) buf) :: s.trace := by
      rw [h.same]
      rfl
    constructor
    · dsimp only
      rw [htrace]
      exact hu.issue hw
    · intro l' hl' x hx
      dsimp only [isOpen] at hl'
      rw [htrace] at hl'
      split_ifs at hl' with heq
      have hl' : isOpen l' s.trace = true := hl'
      have hx : InSegment c (s.area l').segno x := by
        rw [h.same] at hx
        exact hx
      change Mkfs.freshAt c x s1.trace = true
      rw [htrace, freshAt_issue, if_neg]
      · exact hu.opened l' hl' x hx
      · exact fun hin => heq (hc.distinct l l' hw.opened hl' (InSegment.unique (c := c) hin hx))

theorem Unwritten.steps (hu : Unwritten c s) (hc : Counted c s) (hf : Fillings c s)
    (h : ReflTransGen (Step c) s s') : Unwritten c s' := by
  induction h with
  | refl => exact hu
  | tail h1 hstep ih => exact hstep.unwritten (hc.steps hf h1) ih

/-- A segment that is kept is as fresh as it was; so is one that is not reached. -/
theorem freshAt_steps (hc : Counted c s) (hf : Fillings c s) (h : ReflTransGen (Step c) s s')
    (hx : InSegment c i x) (hout : Kept i s ∨ s'.lastseg ≤ i) :
    freshAt c x s'.trace = freshAt c x s.trace := by
  induction h with
  | refl => rfl
  | @tail y z h1 hstep ih =>
    have hle := hstep.goes_on.1
    rw [← ih (hout.imp_right hle.trans)]
    apply hstep.freshAt hx
    · rintro rfl
      rcases hout with hk | hlast
      · exact absurd (hk.steps h1).lt (Nat.lt_irrefl _)
      · exact Nat.le_antisymm hlast hle
    · intro l hl heq
      rcases hout with hk | hlast
      · exact (hk.steps h1).area l hl heq
      · have hlt := (hc.steps hf h1).open_lt l hl
        omega

/-- A run that is stopped has issued the write of an open area at most. -/
theorem Halt.disciplined (h : Halt c s s') (hu : Unwritten c s) : Disciplined c s'.trace := by
  cases h with
  | here => exact hu.disciplined
  | turn h =>
    rcases h.trace with htrace | htrace
    · rw [htrace]
      exact hu.disciplined
    · rw [htrace]
      exact hu.disciplined
  | taken _ h =>
    dsimp only
    rw [h.same]
    exact hu.disciplined
  | cut hw _ h =>
    rw [h.same]
    exact hu.issue hw
  | wrote hw h =>
    rw [h.same]
    exact hu.issue hw

theorem FailedWrite.disciplined (h : FailedWrite c s s') (hu : Unwritten c s) :
    Disciplined c s'.trace := by
  cases h with
  | mk hw _ h =>
    rw [h.same]
    exact hu.issue hw

theorem OnlyTries.disciplined (h : OnlyTries s s') (hd : Disciplined c s.trace) :
    Disciplined c s'.trace := by
  obtain ⟨new, htrace, hnew⟩ := h
  rw [htrace]
  clear htrace
  induction new with
  | nil => exact hd
  | cons e new ih =>
    have htail := ih fun e he => hnew e (List.mem_cons_of_mem _ he)
    have he := hnew e List.mem_cons_self
    cases e with
    | erase | scan | got => exact htail
    | opened | append | issue | done | closed | prepared => exact he.elim

/-- Nothing is taken behind the table when the counter cannot wrap. -/
theorem Calm.steps_of_running (h : Calm c s s') (hc : c.noSegs < 2 ^ 32 - 1) (hr : Running c s) :
    ReflTransGen (Step c) s s' := by
  induction h with
  | refl => exact .refl
  | tail _ hstep ih =>
    rcases hstep with hstep | ho
    · exact ih.tail hstep
    · exact (ho.absurd_of_running hc (hr.steps ih)).elim

end Steps

/-! ## A run -/

section Run

variable {c : Cfg} {s s1 s2 s3 s' : Sb} {k k1 k2 i x : Nat} {os : List Outcome}

/-- The segments of the superblocks are erased, and the one behind them is not. -/
structure Erased (c : Cfg) (k1 k2 : Nat) (s : Sb) : Prop where
  first : FreshSeg c k1 s
  second : FreshSeg c k2 s
  behind : ∀ x, InSegment c (k2 + 1) x → freshAt c x s.trace = false

theorem badTurns_not_fresh (h : ReflTransGen (BadTurn c) s s')
    (hs : freshAt c x s.trace = false) : freshAt c x s'.trace = false := by
  induction h with
  | refl => exact hs
  | tail _ hb ih =>
    rw [hb.same]
    change freshAt c x (.erase _ false :: _) = false
    rw [freshAt_erase, ih, ite_self]

theorem freshAt_scans {fails tr : List Event}
    (hf : ∀ e ∈ fails, ∃ j, e = .scan j false ∧ k < j) (hx : InSegment c i x) :
    (i ≤ k → freshAt c x (fails ++ tr) = freshAt c x tr) ∧
      (freshAt c x tr = false → freshAt c x (fails ++ tr) = false) := by
  induction fails with
  | nil => exact ⟨fun _ => rfl, id⟩
  | cons e fails ih =>
    obtain ⟨j, rfl, hj⟩ := hf _ List.mem_cons_self
    obtain ⟨h1, h2⟩ := ih fun e he => hf e (List.mem_cons_of_mem _ he)
    have hcons : freshAt c x (.scan j false :: fails ++ tr) =
        if InSegment c j x then false else freshAt c x (fails ++ tr) := rfl
    rw [hcons]
    constructor
    · intro hi
      rw [if_neg, h1 hi]
      intro hin
      have := hin.unique hx
      omega
    · intro hno
      rw [h2 hno, ite_self]

theorem Prepared.flash (h : Prepared c k1 k2 (Sb.zero os) s') (hmtd : c.kind = .mtd) :
    Unwritten c s' ∧ Erased c k1 k2 s' := by
  have hquiet := h.blank.quiet
  obtain ⟨s1, s2, h1, h2, rfl⟩ := h.steps
  have hle := h2.le h1
  have htries := h1.onlyTries.trans h2.onlyTries
  refine ⟨⟨htries.disciplined (c := c) trivial, fun l hl => ?_⟩, ?_⟩
  · rw [hquiet.isOpen] at hl
    cases hl
  · cases h2 with
    | bdev hkind =>
      rw [hkind] at hmtd
      cases hmtd
    | mtd _ h2 =>
      obtain ⟨s3, s4, hbad, ht, rfl⟩ := h1.chain
      obtain ⟨fails, hf, hs2⟩ := h2.same
      have hscan : ∀ i x, InSegment c i x → freshAt c x s2.trace =
          if i = k2 then true else freshAt c x (fails ++ s4.trace) := fun i x hx => by
        rw [hs2]
        change (if InSegment c k2 x then true else _) = _
        refine if_congr ⟨fun hin => hx.unique hin, ?_⟩ rfl rfl
        rintro rfl
        exact hx
      refine ⟨fun x hx => ?_, fun x hx => ?_, fun x hx => ?_⟩
      · change freshAt c x s2.trace = true
        rw [hscan k1 x hx, (freshAt_scans hf hx).1 hle, ht.freshAt hx, if_pos ht.segno_eq, ite_self]
      · exact (hscan k2 x hx).trans (if_pos rfl)
      · change freshAt c x s2.trace = false
        have hne : k2 + 1 ≠ s3.lastseg := by
          have := ht.segno_eq
          omega
        rw [hscan _ x hx, if_neg (Nat.succ_ne_self k2)]
        apply (freshAt_scans hf hx).2
        rw [ht.freshAt hx, if_neg hne]
        exact badTurns_not_fresh hbad rfl

/-- The segments that `prepare_journal` lists are erased. -/
theorem prepareJournalLoop_fresh {base : List Nat} {s0 : Sb} (hc : Counted c s0)
    (hf : Fillings c s0) : ∀ (n i : Nat) (s : Sb), ReflTransGen (Step c) s0 s →
    (∀ l, isOpen l s.trace = false) → Listed base i s →
    (∀ m < i, FreshSeg c (s.journalSeg m) s) →
    Wp (prepareJournalLoop c n i) (fun _ s' => ∀ m < i + n, FreshSeg c (s'.journalSeg m) s')
      (fun _ _ => True) s := by
  intro n
  induction n with
  | zero => exact fun _ _ _ _ _ h => h
  | succ n ih =>
    intro i s hsteps hopen hl h
    unfold prepareJournalLoop
    apply (getSegment_spec c s).seq _ fun _ _ _ => trivial
    rintro segno s2 ⟨s1, hbad, ht⟩
    rw [wp_ite]
    refine ⟨fun _ => trivial, fun _ => ?_⟩
    unfold reserveEntry
    rw [wp_bind, wp_modify, wp_bind]
    refine wp_setEntry (fun hseg => ?_) trivial
    have hopen1 : ∀ l, isOpen l s1.trace = false := fun l => by
      rw [(SameStore.of_badTurns hbad).isOpen, hopen]
    have hj : s2.journalSeg = s.journalSeg :=
      ht.sameStore.journalSeg.trans (SameStore.of_badTurns hbad).journalSeg
    have hbads : ReflTransGen (Step c) s s1 := ReflTransGen.mono (fun _ _ h => Step.bad h) _ _ hbad
    have hnext := hbads.tail (Step.reserve _ ht hseg ⟨i, rfl⟩)
    rw [show i + (n + 1) = i + 1 + n by omega]
    refine ih (i + 1) _ (hsteps.trans hnext) (fun l => ?_) ((hl.badTurns hbad).next ht hseg hopen1)
      fun m hm x hx => ?_
    · dsimp only
      rw [ht.sameStore.isOpen, hopen1]
    · dsimp only at hx
      rw [Function.update_apply] at hx
      split_ifs at hx with heq
      · dsimp only
        rw [ht.freshAt hx, if_pos ht.segno_eq]
      · rw [hj] at hx
        have hlt : m < i := by omega
        exact (freshAt_steps (hc.steps hf hsteps) (Calm.fillings
          (ReflTransGen.mono (fun _ _ h => Or.inl h) _ _ hsteps) hf) hnext hx
          (Or.inl (hl.kept m hlt))).trans (h m hlt x hx)

/-- The journal goes to a segment that is erased. -/
theorem mkfsStore_journal (hp : Prepared c k1 k2 (Sb.zero os) s1) (hpos : 1 ≤ c.noJournalSegs) :
    Wp (mkfsStore c) (fun _ s => FreshSeg c (s.journalSeg 0) s) (fun _ _ => True) s1 := by
  have hb := hp.blank
  have hplaced := hp.placed
  have hlisted : Listed (returned s1.trace) 0 s1 :=
    ⟨⟨[], rfl, fun m hm => absurd hm (Nat.not_lt_zero m)⟩, fun _ _ _ hm => by omega,
      fun m hm => absurd hm (Nat.not_lt_zero m)⟩
  unfold mkfsStore
  apply Wp.seq ((prepareJournal_listed hp).and (prepareJournalLoop_fresh hb.counted hb.fillings
    c.noJournalSegs 0 s1 .refl hplaced.closed hlisted fun m hm => absurd hm (Nat.not_lt_zero m)))
    _ fun _ _ _ => trivial
  rintro - sj ⟨⟨hran, -, hopen, hl⟩, hfresh⟩
  apply ((storeFiles_spec (hran.ready hp.ready)).and (storeFiles_plan c sj trivial)).mono _
    fun _ _ _ => trivial
  rintro - s ⟨hstored, -, hplan⟩
  have hsteps1 := hran.calm.steps_of_closed hopen
  have hsteps2 := hstored.calm.steps_of_closed (hstored.allClosed hopen)
  intro x hx
  rw [hplan.journalSeg] at hx
  rw [freshAt_steps (hb.counted.steps hb.fillings hsteps1) (hran.calm.fillings hb.fillings) hsteps2
    hx (Or.inl (hl.kept 0 hpos))]
  exact hfresh 0 (by omega) x hx

/-- The state when the files are stored: what is to be written next is erased, where the segment of
the second superblock was not reached. -/
structure FlashStored (c : Cfg) (k1 k2 : Nat) (s : Sb) : Prop where
  separate : Separate c k1 s
  disciplined : Disciplined c s.trace
  journal : FreshSeg c (s.journalSeg 0) s
  ending : s.sbOfs2 + 0x1000 = (k2 + 1) * c.segsize
  erased : s.lastseg ≤ k2 → Erased c k1 k2 s

theorem mkfsStore_flash (hp : Prepared c k1 k2 (Sb.zero os) s1) (hmtd : c.kind = .mtd)
    (hc : c.noSegs < 2 ^ 32 - 1) (hpos : 1 ≤ c.noJournalSegs) :
    Wp (mkfsStore c) (fun _ s => FlashStored c k1 k2 s) (fun _ s' => Disciplined c s'.trace) s1 := by
  have hb := hp.blank
  have hr := hp.placed.running
  obtain ⟨hu, he⟩ := hp.flash hmtd
  have hrun : ∀ s, Calm c s1 s → ReflTransGen (Step c) s1 s ∧ Unwritten c s := fun s h =>
    have hsteps := h.steps_of_running hc hr
    ⟨hsteps, hu.steps hb.counted hb.fillings hsteps⟩
  apply ((mkfsStore_spec hp.ready).and ((mkfsStore_separate hp).and
    (mkfsStore_journal hp hpos))).mono
  · rintro - s ⟨hran, hsep, hjournal⟩
    obtain ⟨hsteps, hunwritten⟩ := hrun s hran.calm
    have hsame : ∀ i x, InSegment c i x → Kept i s1 ∨ s.lastseg ≤ i →
        freshAt c x s.trace = freshAt c x s1.trace := fun i x =>
      freshAt_steps hb.counted hb.fillings hsteps
    refine ⟨hsep, hunwritten.disciplined, hjournal, ?_, fun hlast => ⟨?_, ?_, ?_⟩⟩
    · rw [hran.calm.samePlaces.2]
      exact hp.second_end hmtd
    · intro x hx
      rw [hsame k1 x hx (Or.inl hp.kept.1)]
      exact he.first x hx
    · intro x hx
      rw [hsame k2 x hx (Or.inr hlast)]
      exact he.second x hx
    · intro x hx
      rw [hsame (k2 + 1) x hx (Or.inr (by omega))]
      exact he.behind x hx
  · rintro e s ⟨⟨x, hcalm, hhalt⟩ | ⟨-, x, hcalm, hfail⟩, -⟩
    · exact hhalt.disciplined (hrun x hcalm).2
    · exact hfail.disciplined (hrun x hcalm).2

/-- The state when the journal is written. -/
structure FlashReady (c : Cfg) (k1 k2 : Nat) (s : Sb) : Prop where
  disciplined : Disciplined c s.trace
  places : s.sbOfs1 = k1 * c.segsize ∧ s.sbOfs2 + 0x1000 = (k2 + 1) * c.segsize
  erased : Erased c k1 k2 s
  apart : k1 < k2

/-- The write of a segment other than those of the superblocks. -/
theorem Erased.issue {w : DevWrite} {evs : List Event} (h : Erased c k1 k2 s)
    (hw : ∀ x, w.ofs ≤ x → x < w.ofs + w.size → InSegment c i x) (h1 : k1 ≠ i) (h2 : i < k2)
    (htrace : s'.trace = evs ++ .issue w :: s.trace)
    (hevs : ∀ x tr, freshAt c x (evs ++ tr) = freshAt c x tr) : Erased c k1 k2 s' := by
  have hsame : ∀ j x, InSegment c j x → j ≠ i → freshAt c x s'.trace = freshAt c x s.trace := by
    intro j x hx hne
    rw [htrace, hevs]
    exact if_neg fun hin => hne (hx.unique (hw x hin.1 hin.2))
  refine ⟨fun x hx => ?_, fun x hx => ?_, fun x hx => ?_⟩
  · rw [hsame k1 x hx h1]
    exact h.first x hx
  · rw [hsame k2 x hx (by omega)]
    exact h.second x hx
  · rw [hsame _ x hx (by omega)]
    exact h.behind x hx

theorem FlashStored.behind (h : FlashStored c k1 k2 s) (hroom : Roomy c s) : s.lastseg ≤ k2 := by
  have hsecond := hroom.second
  have hend := h.ending
  by_contra hlt
  have hge : (k2 + 1) * c.segsize ≤ s.lastseg * c.segsize := Nat.mul_le_mul_right _ (by omega)
  omega

theorem Did.roomy {evs : List Event} {ofs n : Nat} {buf : Buf} (h : Did evs ofs n buf s s')
    (hroom : Roomy c s') : Roomy c s := by
  rw [h.same] at hroom
  exact ⟨hroom.second, hroom.low⟩

theorem Roomy.of_journalState {je : List Nat} (h : Roomy c (journalState s je)) : Roomy c s :=
  ⟨h.second, h.low⟩

theorem makeJournal_flash (h : FlashStored c k1 k2 s) (hpos : 1 ≤ c.noJournalSegs) :
    Wp (makeJournal c) (fun _ s' => Roomy c s' → FlashReady c k1 k2 s')
      (fun _ s' => Roomy c s' → Disciplined c s'.trace) s := by
  obtain ⟨hj, hjk, -⟩ := h.separate.journal 0 hpos
  -- the journal is written as one segment, when its offset is below four gigabytes
  have hissue : Roomy c s → ∀ j x, (journalWrite c s j).ofs ≤ x →
      x < (journalWrite c s j).ofs + (journalWrite c s j).size →
      InSegment c (s.journalSeg 0) x := fun hroom j x => by
    have hlow : s.journalSeg 0 * c.segsize < 2 ^ 32 :=
      lt_of_lt_of_le (InSegment.lt_mul ⟨Nat.le_refl _, Nat.lt_add_of_pos_right c.segsize_pos⟩ hj.lt)
        hroom.low
    have hofs : (journalWrite c s j).ofs = s.journalSeg 0 * c.segsize := Nat.mod_eq_of_lt hlow
    rw [hofs]
    exact fun h1 h2 => ⟨h1, h2⟩
  have hdisc : Roomy c s → ∀ j, Disciplined c (.issue (journalWrite c s j) :: s.trace) :=
    fun hroom j => ⟨fun x h1 h2 => h.journal x (hissue hroom j x h1 h2), h.disciplined⟩
  have hready : Roomy c s → ∀ j je s' evs n (ok : Bool), evs = [.done (journalWrite c s j) ok] →
      Did (evs ++ [.issue (journalWrite c s j)]) (journalWrite c s j).ofs n j (journalState s je) s' →
      FlashReady c k1 k2 s' := by
    rintro hroom j je s' evs n ok rfl hd
    have hlast := h.behind hroom
    have htrace : s'.trace = [.done (journalWrite c s j) ok] ++
        .issue (journalWrite c s j) :: s.trace := by
      rw [hd.same]
      rfl
    have hk := h.separate.first.1.lt
    have hjlt := hj.lt
    refine ⟨?_, ?_, (h.erased hlast).issue (hissue hroom j) hjk.symm (by omega) htrace
      fun _ _ => rfl, by omega⟩
    · rw [htrace]
      exact hdisc hroom j
    · rw [hd.same]
      exact ⟨h.separate.sbOfs.1, h.ending⟩
  apply (makeJournal_spec (D := fun _ _ => True) fun _ _ _ => trivial).mono
  · rintro r s' ⟨j, je, -, ⟨-, hd⟩ | ⟨-, n, -, hd⟩⟩ hroom
    · exact hready (hd.roomy hroom).of_journalState j je s' _ _ true rfl hd
    · exact hready (hd.roomy hroom).of_journalState j je s' _ _ false rfl hd
  · rintro e s' ⟨je, rfl | ⟨j, n, -, -, hd⟩⟩ hroom
    · exact h.disciplined
    · have htrace : s'.trace = .issue (journalWrite c s j) :: s.trace := by
        rw [hd.same]
        rfl
      rw [htrace]
      exact hdisc (hd.roomy hroom).of_journalState j

theorem secsize_le_iff (c : Cfg) : c.secsize ≤ 0x1000 ↔ c.writeshift ≤ 12 := by
  rw [secsize_eq, max_le_iff, Cfg.writesize, show (0x1000 : Nat) = 2 ^ 12 by decide,
    Nat.pow_le_pow_iff_right (by decide)]
  exact and_iff_right (by decide)

theorem FlashReady.first (h : FlashReady c k1 k2 s) (hx1 : s.sbOfs1 ≤ x)
    (hx2 : x < s.sbOfs1 + c.secsize) : InSegment c k1 x := by
  have hle := secsize_le c
  rw [h.places.1] at hx1 hx2
  exact ⟨hx1, by omega⟩

theorem FlashReady.second (h : FlashReady c k1 k2 s) (hw : c.writeshift ≤ 12)
    (hx1 : s.sbOfs2 ≤ x) (hx2 : x < s.sbOfs2 + c.secsize) : InSegment c k2 x := by
  have hle := (secsize_le_iff c).2 hw
  have htwo := c.two_blocks_le
  have hend := h.places.2
  rw [Nat.add_mul, Nat.one_mul] at hend
  exact ⟨by omega, by omega⟩

/-- The first copy goes to its segment. -/
theorem FlashReady.issue_first {buf : Buf} {t : Target} (h : FlashReady c k1 k2 s) :
    Disciplined c (.issue ⟨t, s.sbOfs1, c.secsize, buf⟩ :: s.trace) :=
  ⟨fun x hx1 hx2 => h.erased.first x (h.first hx1 hx2), h.disciplined⟩

/-- The second copy goes to bytes that were erased just when it ends with its segment. -/
theorem FlashReady.issue_second {buf : Buf} {t t' : Target} (h : FlashReady c k1 k2 s) :
    Disciplined c (.issue ⟨t', s.sbOfs2, c.secsize, buf⟩ ::
      .done ⟨t, s.sbOfs1, c.secsize, buf⟩ true :: .issue ⟨t, s.sbOfs1, c.secsize, buf⟩ :: s.trace) ↔
      c.writeshift ≤ 12 := by
  have hother : ∀ i x, InSegment c i x → i ≠ k1 →
      freshAt c x (.done ⟨t, s.sbOfs1, c.secsize, buf⟩ true ::
        .issue ⟨t, s.sbOfs1, c.secsize, buf⟩ :: s.trace) = freshAt c x s.trace :=
    fun i x hx hne => if_neg fun hin => hne (hx.unique (h.first hin.1 hin.2))
  constructor
  · rintro ⟨hfresh, -⟩
    rw [← secsize_le_iff]
    by_contra hlong
    -- the byte behind the segment is written too
    have hend := h.places.2
    have hin : InSegment c (k2 + 1) (s.sbOfs2 + 0x1000) :=
      ⟨Nat.le_of_eq hend.symm, by rw [hend]; exact Nat.lt_add_of_pos_right c.segsize_pos⟩
    have hno := h.erased.behind _ hin
    have hapart := h.apart
    have htrue := hfresh (s.sbOfs2 + 0x1000) (Nat.le_add_right _ _) (by dsimp only; omega)
    rw [hother _ _ hin (by omega), hno] at htrue
    cases htrue
  · intro hw
    refine ⟨fun x hx1 hx2 => ?_, h.issue_first⟩
    have hin := h.second hw hx1 hx2
    rw [hother k2 x hin h.apart.ne']
    exact h.erased.second x hin

theorem makeSuper_flash (h : Roomy c s → FlashReady c k1 k2 s) :
    Wp (makeSuper c)
      (fun r s' => Roomy c s' → (c.writeshift ≤ 12 → Disciplined c s'.trace) ∧
        (r = 0 → Disciplined c s'.trace → c.writeshift ≤ 12))
      (fun _ s' => Roomy c s' → c.writeshift ≤ 12 → Disciplined c s'.trace) s := by
  unfold Wp
  rw [makeSuper_eq]
  apply (devWrite_spec (.super 0) s.sbOfs1 c.secsize (superSector c s) s).seq
  · rintro r s1 (⟨rfl, h1⟩ | ⟨rfl, n, -, h1⟩)
    · unfold secondSuper
      rw [if_pos rfl]
      have hsecond : Roomy c s1 → (Disciplined c
          (.issue ⟨.super 1, s.sbOfs2, c.secsize, superSector c s⟩ :: s1.trace) ↔
          c.writeshift ≤ 12) := fun hroom => by
        rw [h1.same]
        exact (h (h1.roomy hroom)).issue_second
      apply (devWrite_spec _ _ _ _ s1).mono
      · rintro r s2 (⟨-, h2⟩ | ⟨rfl, n, -, h2⟩) hroom
        · have hiff := hsecond (h2.roomy hroom)
          rw [h2.same]
          exact ⟨hiff.2, fun _ => hiff.1⟩
        · have hiff := hsecond (h2.roomy hroom)
          rw [h2.same]
          exact ⟨hiff.2, fun hr => absurd hr (by decide)⟩
      · rintro e s2 ⟨n, -, h2⟩ hroom
        have hiff := hsecond (h2.roomy hroom)
        rw [h2.same]
        exact hiff.2
    · unfold secondSuper
      rw [if_neg (by decide), wp_pure]
      intro hroom
      have hready := h (h1.roomy hroom)
      rw [h1.same]
      exact ⟨fun _ => hready.issue_first, fun hr => absurd hr (by decide)⟩
  · rintro e s1 ⟨n, -, h1⟩ hroom -
    have hready := h (h1.roomy hroom)
    rw [h1.same]
    exact hready.issue_first

/-- A run that comes to an end with room for the second superblock, if `prepare_sb` gave it one. -/
def RunRoomy (c : Cfg) (os : List Outcome) (s' : Sb) : Prop :=
  ∀ s1, mkfsPrepare c (Sb.zero os) = .ok () s1 → Roomy c s'

theorem mkfs_flash (hmtd : c.kind = .mtd) (hc : c.noSegs < 2 ^ 32 - 1)
    (hpos : 1 ≤ c.noJournalSegs) (os : List Outcome) :
    Wp (mkfs c)
      (fun _ s' => RunRoomy c os s' →
        (c.writeshift ≤ 12 → Disciplined c s'.trace) ∧
          (Disciplined c s'.trace → c.writeshift ≤ 12))
      (fun _ s' => RunRoomy c os s' → c.writeshift ≤ 12 → Disciplined c s'.trace) (Sb.zero os) := by
  unfold mkfs
  apply ((mkfsPrepare_spec rfl).and (Wp.self _ _)).seq
  · rintro ⟨⟩ s1 ⟨⟨k1, k2, hp⟩, hrun⟩
    apply (mkfsStore_flash hp hmtd hc hpos).seq _ fun _ _ h _ _ => h
    intro _ s2 h2
    refine Wp.bind (Q := fun _ s3 => Roomy c s3 → FlashReady c k1 k2 s3) (wp_orFail ?_) ?_
    · apply (makeJournal_flash h2 hpos).mono
      · exact fun r s3 h3 => ⟨fun _ => h3, fun _ hroom _ => (h3 (hroom s1 hrun)).disciplined⟩
      · exact fun _ s3 h3 hroom _ => h3 (hroom s1 hrun)
    · intro _ s3 h3
      apply wp_orFail
      apply (makeSuper_flash h3).mono
      · intro r s4 h4
        exact ⟨fun hr hroom => ⟨(h4 (hroom s1 hrun)).1, (h4 (hroom s1 hrun)).2 hr⟩,
          fun _ hroom => (h4 (hroom s1 hrun)).1⟩
      · exact fun _ s4 h4 hroom => h4 (hroom s1 hrun)
  · rintro e s' ⟨h, -⟩ - -
    exact h.disciplined trivial

end Run

/-- A run on flash writes only to bytes that were erased since they were written last, wherever it
ends, if the write size is at most four kilobytes.  With a larger one no run that comes to its end
does, as the second superblock reaches behind its segment. -/
theorem writes_to_erased (c : Cfg) (os : List Outcome) (hmtd : c.kind = .mtd)
    (hc : c.noSegs < 2 ^ 32 - 1) (hpos : 1 ≤ c.noJournalSegs)
    (hroom : RunRoomy c os (after (mkfs c) (Sb.zero os))) :
    (c.writeshift ≤ 12 → Disciplined c (after (mkfs c) (Sb.zero os)).trace) ∧
      ∀ s, mkfs c (Sb.zero os) = .ok () s → Disciplined c s.trace → c.writeshift ≤ 12 := by
  have h := mkfs_flash hmtd hc hpos os
  constructor
  · exact after_of_wp (P := fun s => RunRoomy c os s → c.writeshift ≤ 12 → Disciplined c s.trace)
      (h.mono (fun _ _ h hroom => (h hroom).1) fun _ _ h => h) hroom
  · intro s hs
    have hafter : after (mkfs c) (Sb.zero os) = s := by
      unfold after
      rw [hs]
    rw [hafter] at hroom
    exact (h.of_ok hs hroom).2

/-- The write of the second copy fails. -/
def secondFails : List Outcome := List.replicate 9 (.ok 8192) ++ [.error]

theorem roomy_secondFails : Roomy flash64 (after (mkfs flash64) (Sb.zero secondFails)) := by
  have hroom : decide ((after (mkfs flash64) (Sb.zero secondFails)).lastseg * flash64.segsize ≤
      (after (mkfs flash64) (Sb.zero secondFails)).sbOfs2 ∧
      (after (mkfs flash64) (Sb.zero secondFails)).lastseg * flash64.segsize ≤ 2 ^ 32) = true := by
    decide +kernel
  obtain ⟨hsecond, hlow⟩ := of_decide_eq_true hroom
  exact ⟨hsecond, hlow⟩

theorem writes_to_erased_secondFails :
    Disciplined flash64 (after (mkfs flash64) (Sb.zero secondFails)).trace := by
  have h := writes_to_erased flash64 secondFails rfl (by decide) (by decide)
    fun _ _ => roomy_secondFails
  -- a run of its own, so that nothing evaluates this one
  generalize after (mkfs flash64) (Sb.zero secondFails) = s at h ⊢
  exact h.1 (by decide)

end Logfs.Mkfs
