import Logfs.Mkfs.Mount

/-!
# What the segments are used for

A segment that `get_segment` has not tried has no entry; one that it tried is bad,
is kept for a superblock or the journal, or belongs to an area.  The entry of an
area's segment is set when the segment is written, and counts what is in there.
-/

namespace Logfs.Mkfs

open Relation (ReflTransGen)

/-- The use of segment `i`, with the entry that goes with it; those in `R` are kept. -/
inductive Use (R : Nat → Prop) (s : Sb) (i : Nat) : Prop where
  | unused (hlast : s.lastseg ≤ i) (he : s.segmentEntry i = .zero)
  | opened {l : Nat} (ho : isOpen l s.trace = true) (hseg : (s.area l).segno = i)
  | bad (hlt : i < s.lastseg) (he : s.segmentEntry i = badEntry)
  | kept (hR : R i) (he : s.segmentEntry i = reservedEntry)
  | stored {l : Nat} {p : DevWrite × List Obj} (hl : l < noAreas) (hp : Put l i p s.trace)
    (he : s.segmentEntry i = ⟨ecLevel 1 l, sizes p.2⟩)

def Uses (R : Nat → Prop) (s : Sb) : Prop := ∀ i, Use R s i

section Steps

variable {c : Cfg} {R R' : Nat → Prop} {s s1 s' : Sb} {i l segno : Nat}

theorem Use.mono (h : Use R s i) (hR : R i → R' i) : Use R' s i := by
  cases h with
  | unused hlast he => exact .unused hlast he
  | opened ho hseg => exact .opened ho hseg
  | bad hlt he => exact .bad hlt he
  | kept hr he => exact .kept (hR hr) he
  | stored hl hp he => exact .stored hl hp he

/-- A segment of which the entry, the writes and the areas stay as they are. -/
theorem Use.keep (h : Use R s i) (hlast : s.lastseg ≤ i → s'.lastseg ≤ i)
    (hle : s.lastseg ≤ s'.lastseg) (he : s'.segmentEntry i = s.segmentEntry i)
    (hput : ∀ {l p}, Put l i p s.trace → Put l i p s'.trace)
    (hopen : ∀ l, isOpen l s.trace = true → (s.area l).segno = i →
      isOpen l s'.trace = true ∧ (s'.area l).segno = i) : Use R s' i := by
  cases h with
  | unused hi h0 => exact .unused (hlast hi) (he.trans h0)
  | opened ho hseg =>
    obtain ⟨ho', hseg'⟩ := hopen _ ho hseg
    exact .opened ho' hseg'
  | bad hlt hb => exact .bad (lt_of_lt_of_le hlt hle) (he.trans hb)
  | kept hr hk => exact .kept hr (he.trans hk)
  | stored hl hp hs => exact .stored hl (hput hp) (he.trans hs)

theorem Uses.congr (hu : Uses R s) (hlast : s'.lastseg = s.lastseg)
    (he : s'.segmentEntry = s.segmentEntry) (hwritten : ∀ l, written l s'.trace = written l s.trace)
    (hopen : ∀ l, isOpen l s'.trace = isOpen l s.trace)
    (harea : ∀ l, (s'.area l).segno = (s.area l).segno) : Uses R s' := fun i =>
  (hu i).keep (fun h => by rwa [hlast]) (Nat.le_of_eq hlast.symm) (by rw [he])
    (fun h => ⟨by rw [hwritten]; exact h.mem, h.target⟩)
    fun l ho hseg => ⟨by rw [hopen]; exact ho, by rw [harea]; exact hseg⟩

/-- `get_segment` has tried one more segment, which has some use now. -/
theorem Uses.tried (hu : Uses R s) (hlast : s'.lastseg = s.lastseg + 1)
    (he : ∀ i, i ≠ s.lastseg → s'.segmentEntry i = s.segmentEntry i)
    (hwritten : ∀ l, written l s'.trace = written l s.trace)
    (hopen : ∀ l, isOpen l s.trace = true → isOpen l s'.trace = true ∧ s'.area l = s.area l)
    (hnew : Use R' s' s.lastseg) (hR : ∀ i, R i → R' i) : Uses R' s' := fun i => by
  by_cases heq : i = s.lastseg
  · rw [heq]
    exact hnew
  · refine ((hu i).mono (hR i)).keep (fun h => by omega) (by omega) (he i heq)
      (fun h => ⟨by rw [hwritten]; exact h.mem, h.target⟩) fun l ho hseg => ?_
    obtain ⟨ho', ha⟩ := hopen l ho
    exact ⟨ho', by rw [ha]; exact hseg⟩

theorem BadTurn.uses (h : BadTurn c s s') (hu : Uses R s) : Uses R s' := by
  have hsame := h.sameAreas
  have hlast : s'.lastseg = s.lastseg + 1 := by rw [h.same]
  have hentry : s'.segmentEntry = Function.update s.segmentEntry s.lastseg badEntry := by
    rw [h.same]
    rfl
  have hnew : Use R s' s.lastseg :=
    .bad (by rw [hlast]; exact Nat.lt_succ_self _) (by rw [hentry, Function.update_self])
  apply hu.tried hlast _ hsame.written _ hnew fun _ h => h
  · intro i hi
    rw [hentry, Function.update_of_ne hi]
  · intro l hl
    exact ⟨by rw [hsame.isOpen]; exact hl, by rw [hsame.area]⟩

theorem badTurns_uses (h : ReflTransGen (BadTurn c) s s') (hu : Uses R s) : Uses R s' := by
  induction h with
  | refl => exact hu
  | tail _ hb ih => exact hb.uses ih

/-- A segment is taken and kept. -/
theorem Taken.uses_reserve (h : Taken c segno s s1) (hseg : segno < c.noSegs) (hu : Uses R s)
    (hlast : s'.lastseg = s1.lastseg)
    (he : s'.segmentEntry = Function.update s1.segmentEntry segno reservedEntry)
    (htrace : s'.trace = s1.trace) (harea : s'.area = s1.area) (hR : ∀ i, R i → R' i)
    (hnew : R' segno) : Uses R' s' := by
  have hsame := h.sameAreas
  have hentry : s1.segmentEntry = s.segmentEntry := by rw [h.same]
  have hkept : Use R' s' s.lastseg := by
    rw [← h.segno_eq]
    exact .kept hnew (by rw [he, Function.update_self])
  apply hu.tried (by rw [hlast, h.lastseg hseg]) _ _ _ hkept hR
  · intro i hi
    rw [he, Function.update_of_ne (by rw [h.segno_eq]; exact hi), hentry]
  · intro l
    rw [htrace, hsame.written]
  · intro l hl
    exact ⟨by rw [htrace, hsame.isOpen]; exact hl, by rw [harea, hsame.area]⟩

theorem Taken.uses_fresh (h : Taken c segno s s1) (hseg : segno < c.noSegs)
    (hclosed : isOpen l s.trace = false) (hu : Uses R s)
    (hlast : s'.lastseg = s1.lastseg) (he : s'.segmentEntry = s1.segmentEntry)
    (htrace : s'.trace = .opened l segno :: s1.trace)
    (harea : s'.area = Function.update s1.area l (openedArea c l segno)) : Uses R s' := by
  have hsame := h.sameAreas
  have hentry : s1.segmentEntry = s.segmentEntry := by rw [h.same]
  have hopened : Use R s' s.lastseg := by
    rw [← h.segno_eq]
    apply Use.opened (l := l)
    · rw [htrace, isOpen, if_pos rfl]
    · rw [harea, Function.update_self]
      rfl
  apply hu.tried (by rw [hlast, h.lastseg hseg]) _ _ _ hopened fun _ h => h
  · intro i _
    rw [he, hentry]
  · intro l'
    rw [htrace, ← hsame.written]
    rfl
  · intro l' hl'
    have hne : l ≠ l' := by
      rintro rfl
      rw [hclosed] at hl'
      cases hl'
    rw [htrace, isOpen, if_neg hne, hsame.isOpen, harea, Function.update_of_ne hne.symm, hsame.area]
    exact ⟨hl', rfl⟩

/-- The segment of an area is written. -/
theorem Uses.close {buf : Buf} (hu : Uses R s) (hf : Fillings c s) (hw : Writes l buf s)
    (hlast : s'.lastseg = s.lastseg) (harea : s'.area = s.area)
    (he : s'.segmentEntry =
      Function.update s.segmentEntry (s.area l).segno (areaEntry l (s.area l)))
    (hopen : ∀ l', isOpen l' s'.trace = if l = l' then false else isOpen l' s.trace)
    (hwritten : ∀ l', written l' s'.trace = if l = l' then
      written l' s.trace ++ [(areaWrite c l (s.area l) buf, filling l' s.trace)]
      else written l' s.trace) : Uses R s' := by
  intro i
  by_cases heq : (s.area l).segno = i
  · subst heq
    have hold := hf.area l hw.opened
    apply Use.stored (l := l) (p := (areaWrite c l (s.area l) buf, filling l s.trace)) hw.lt
    · exact ⟨by rw [hwritten, if_pos rfl]; simp, rfl⟩
    · have hvalid := areaEntry_valid hold
      rw [hold.used, Nat.add_sub_cancel_left] at hvalid
      rw [he, Function.update_self, ← hvalid]
      rfl
  · refine (hu i).keep (fun h => by rwa [hlast]) (Nat.le_of_eq hlast.symm)
      (by rw [he, Function.update_of_ne (Ne.symm heq)]) (fun {l' p} h => ⟨?_, h.target⟩)
      fun l' ho hseg => ?_
    · rw [hwritten]
      split_ifs
      · exact List.mem_append_left _ h.mem
      · exact h.mem
    · have hne : l ≠ l' := by
        rintro rfl
        exact heq hseg
      rw [hopen, if_neg hne, harea]
      exact ⟨ho, hseg⟩

/-- A step keeps the uses, unless it takes a segment for the journal. -/
theorem Step.uses (h : Step c s s') (hf : Fillings c s) (hu : Uses R s) :
    Uses R s' ∨ ∃ m, s.lastseg ≤ s'.journalSeg m := by
  cases h with
  | create => exact Or.inl (hu.congr rfl rfl (fun _ => rfl) (fun _ => rfl) fun _ => rfl)
  | modify => exact Or.inl (hu.congr rfl rfl (fun _ => rfl) (fun _ => rfl) fun _ => rfl)
  | bad h => exact Or.inl (h.uses hu)
  | reserve _ h _ hj =>
    obtain ⟨m, rfl⟩ := hj
    right
    use m
    dsimp only
    rw [Function.update_self, h.segno_eq]
  | fresh _ hclosed h hseg => exact Or.inl (h.uses_fresh hseg hclosed hu rfl rfl rfl rfl)
  | append h =>
    refine Or.inl (hu.congr rfl rfl (fun _ => rfl) (fun _ => rfl) fun l => ?_)
    unfold appendTo
    dsimp only
    rw [Function.update_apply]
    split_ifs with hl
    · rw [hl]
      rfl
    · rfl
  | close hw _ h =>
    left
    apply hu.close hf hw
    · rw [h.same]
    · rw [h.same]
    · rw [h.same]
    · intro l'
      rw [h.same]
      rfl
    · intro l'
      rw [h.same]
      simp only [List.cons_append, List.nil_append, written, DevWrite.isArea, areaWrite,
        decide_eq_true_eq, filling]

/-- A step goes on in the table, and takes new segments for the journal. -/
theorem Step.goes_on (h : Step c s s') : s.lastseg ≤ s'.lastseg ∧
    ∀ m, s'.journalSeg m = s.journalSeg m ∨
      s'.journalSeg m = s.lastseg ∧ s.lastseg < s'.lastseg := by
  have htaken : ∀ {segno s1}, Taken c segno s s1 → segno < c.noSegs →
      s1.lastseg = s.lastseg + 1 ∧ s1.journalSeg = s.journalSeg := fun ht hseg =>
    ⟨ht.lastseg hseg, ht.sameStore.journalSeg⟩
  cases h with
  | create => exact ⟨Nat.le_refl _, fun _ => Or.inl rfl⟩
  | modify => exact ⟨Nat.le_refl _, fun _ => Or.inl rfl⟩
  | bad h =>
    rw [h.same]
    exact ⟨Nat.le_succ _, fun _ => Or.inl rfl⟩
  | reserve _ h hseg hj =>
    obtain ⟨i, rfl⟩ := hj
    obtain ⟨hlast, hjournal⟩ := htaken h hseg
    dsimp only
    rw [hlast, hjournal]
    refine ⟨Nat.le_succ _, fun m => ?_⟩
    rw [Function.update_apply]
    split_ifs
    · exact Or.inr ⟨h.segno_eq, Nat.lt_succ_self _⟩
    · exact Or.inl rfl
  | fresh _ _ h hseg =>
    obtain ⟨hlast, hjournal⟩ := htaken h hseg
    dsimp only
    rw [hlast, hjournal]
    exact ⟨Nat.le_succ _, fun _ => Or.inl rfl⟩
  | append => exact ⟨Nat.le_refl _, fun _ => Or.inl rfl⟩
  | close _ _ h =>
    rw [h.same]
    exact ⟨Nat.le_refl _, fun _ => Or.inl rfl⟩

/-- Steps that leave the list of the journal as it is keep the uses. -/
theorem Uses.steps (hu : Uses R s) (hf : Fillings c s) (h : ReflTransGen (Step c) s s')
    (hlow : ∀ m, s.journalSeg m < s.lastseg) (hsame : s'.journalSeg = s.journalSeg) :
    Uses R s' := by
  have hrun : s.lastseg ≤ s'.lastseg ∧ (Uses R s' ∨ ∃ m, s.lastseg ≤ s'.journalSeg m) := by
    clear hsame
    induction h with
    | refl => exact ⟨Nat.le_refl _, Or.inl hu⟩
    | @tail x y h1 hstep ih =>
      obtain ⟨hle, hj⟩ := hstep.goes_on
      obtain ⟨hlast, hold⟩ := ih
      have hfill : Fillings c x := Calm.fillings (ReflTransGen.mono (fun _ _ h => Or.inl h) _ _ h1) hf
      refine ⟨hlast.trans hle, ?_⟩
      rcases hold with hx | ⟨m, hm⟩
      · exact (hstep.uses hfill hx).imp_right fun ⟨m, hm⟩ => ⟨m, hlast.trans hm⟩
      · -- a segment that was listed is replaced by a later one
        refine Or.inr ⟨m, ?_⟩
        rcases hj m with heq | ⟨heq, -⟩
        · rwa [heq]
        · rwa [heq]
  refine hrun.2.resolve_right ?_
  rintro ⟨m, hm⟩
  rw [hsame] at hm
  exact absurd (hlow m) (not_lt.2 hm)

/-- The segments listed for the journal have been tried. -/
theorem journal_low (h : ReflTransGen (Step c) s s') (hlow : ∀ m, s.journalSeg m < s.lastseg)
    (m : Nat) : s'.journalSeg m < s'.lastseg := by
  induction h with
  | refl => exact hlow m
  | tail _ hstep ih =>
    obtain ⟨hle, hj⟩ := hstep.goes_on
    rcases hj m with heq | ⟨heq, hlt⟩
    · rw [heq]
      exact lt_of_lt_of_le ih hle
    · rwa [heq]

end Steps

/-! ## A run -/

section Run

variable {c : Cfg} {R : Nat → Prop} {s s1 s' : Sb} {k k1 k2 : Nat} {os : List Outcome}

theorem First.uses (h : First c k (Sb.zero os) s') : Uses (· = k) s' := by
  obtain ⟨s1, s2, hbad, ht, rfl⟩ := h.chain
  have hzero : Uses (fun _ => False) (Sb.zero os) := fun i => .unused (Nat.zero_le i) rfl
  exact ht.uses_reserve h.lt (badTurns_uses hbad hzero) rfl rfl rfl rfl (fun _ h => h.elim) rfl

/-- The segment of the second superblock is kept as well. -/
theorem Uses.second (hu : Uses (· = k1) s) (hlast : s'.lastseg = s.lastseg)
    (he : s'.segmentEntry = Function.update s.segmentEntry k2 reservedEntry)
    (hwritten : ∀ l, written l s'.trace = written l s.trace)
    (hopen : ∀ l, isOpen l s'.trace = isOpen l s.trace) (harea : s'.area = s.area) :
    Uses (fun x => x = k1 ∨ x = k2) s' := fun i => by
  by_cases heq : i = k2
  · exact .kept (Or.inr heq) (by rw [he, heq, Function.update_self])
  · exact ((hu i).mono Or.inl).keep (fun h => by rwa [hlast]) (Nat.le_of_eq hlast.symm)
      (by rw [he, Function.update_of_ne heq])
      (fun h => ⟨by rw [hwritten]; exact h.mem, h.target⟩)
      fun l ho hseg => ⟨by rw [hopen]; exact ho, by rw [harea]; exact hseg⟩

theorem written_scans {fails tr : List Event} {l : Nat}
    (hf : ∀ e ∈ fails, ∃ j, e = .scan j false ∧ k < j) : written l (fails ++ tr) = written l tr := by
  induction fails with
  | nil => rfl
  | cons e fails ih =>
    obtain ⟨j, rfl, -⟩ := hf _ List.mem_cons_self
    exact ih fun e he => hf e (List.mem_cons_of_mem _ he)

theorem Prepared.uses (h : Prepared c k1 k2 (Sb.zero os) s') :
    Uses (fun x => x = k1 ∨ x = k2) s' := by
  obtain ⟨s1, s2, h1, h2, rfl⟩ := h.steps
  cases h2 with
  | bdev _ _ _ h =>
    rw [h]
    exact h1.uses.second rfl rfl (fun _ => rfl) (fun _ => rfl) rfl
  | mtd _ h =>
    obtain ⟨fails, hf, hs2⟩ := h.same
    rw [hs2]
    exact h1.uses.second rfl rfl (fun _ => written_scans hf) (fun _ => isOpen_scans hf) rfl

/-- The loop of `prepare_journal` keeps the segments that it lists. -/
theorem prepareJournalLoop_uses : ∀ (n i : Nat) (s : Sb),
    Uses (fun x => R x ∨ ∃ m < i, s.journalSeg m = x) s →
    Wp (prepareJournalLoop c n i)
      (fun _ s' => Uses (fun x => R x ∨ ∃ m < i + n, s'.journalSeg m = x) s') (fun _ _ => True) s := by
  intro n
  induction n with
  | zero => exact fun _ _ hu => hu
  | succ n ih =>
    intro i s hu
    unfold prepareJournalLoop
    apply (getSegment_spec c s).seq _ fun _ _ _ => trivial
    rintro segno s2 ⟨s1, hbad, ht⟩
    rw [wp_ite]
    refine ⟨fun _ => trivial, fun _ => ?_⟩
    unfold reserveEntry
    rw [wp_bind, wp_modify, wp_bind]
    refine wp_setEntry (fun hseg => ?_) trivial
    have hj : s2.journalSeg = s.journalSeg :=
      ht.sameStore.journalSeg.trans (SameStore.of_badTurns hbad).journalSeg
    have hnext : Uses (fun x => R x ∨ ∃ m < i + 1, Function.update s2.journalSeg i segno m = x)
        { s2 with
          journalSeg := Function.update s2.journalSeg i segno
          segmentEntry := Function.update s2.segmentEntry segno reservedEntry } := by
      refine ht.uses_reserve hseg (badTurns_uses hbad hu) rfl rfl rfl rfl ?_
        (Or.inr ⟨i, Nat.lt_succ_self i, Function.update_self ..⟩)
      rintro x (hx | ⟨m, hm, rfl⟩)
      · exact Or.inl hx
      · exact Or.inr ⟨m, by omega, by rw [Function.update_of_ne (by omega), hj]⟩
    apply (ih (i + 1) _ hnext).imp
    rw [show i + (n + 1) = i + 1 + n by omega]
    exact fun _ _ h => h

/-- Nothing has been listed for the journal yet. -/
theorem Prepared.journal_low (h : Prepared c k1 k2 (Sb.zero os) s') (m : Nat) :
    s'.journalSeg m < s'.lastseg := by
  have hlast := h.kept.1.lt
  rw [h.journalSeg]
  exact Nat.lt_of_le_of_lt (Nat.zero_le _) hlast

/-- The segments that are kept in the end. -/
def Keeping (c : Cfg) (k1 k2 : Nat) (s : Sb) (x : Nat) : Prop :=
  (x = k1 ∨ x = k2) ∨ ∃ m < c.noJournalSegs, s.journalSeg m = x

theorem mkfsStore_uses (hp : Prepared c k1 k2 (Sb.zero os) s1) :
    Wp (mkfsStore c) (fun _ s' => Uses (Keeping c k1 k2 s') s') (fun _ _ => True) s1 := by
  unfold mkfsStore
  apply Wp.seq ((prepareJournal_listed hp).and (prepareJournalLoop_uses c.noJournalSegs 0 s1
    fun i => (hp.uses i).mono Or.inl)) _ fun _ _ _ => trivial
  rintro - sj ⟨⟨hran, -, hopen, -⟩, hu⟩
  rw [Nat.zero_add] at hu
  apply ((storeFiles_spec (hran.ready hp.ready)).and (storeFiles_plan c sj trivial)).mono _
    fun _ _ _ => trivial
  rintro - s' ⟨hstored, -, hplan⟩
  have hsteps1 := hran.calm.steps_of_closed hopen
  have hsteps2 := hstored.calm.steps_of_closed (hstored.allClosed hopen)
  have hlow : ∀ m, sj.journalSeg m < sj.lastseg := journal_low hsteps1 hp.journal_low
  have hfill := hran.calm.fillings hp.blank.fillings
  intro i
  apply (hu.steps hfill hsteps2 hlow hplan.journalSeg i).mono
  unfold Keeping
  rw [hplan.journalSeg]
  exact id

end Run

end Logfs.Mkfs
