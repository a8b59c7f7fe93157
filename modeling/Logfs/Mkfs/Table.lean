import Logfs.Mkfs.Prepare

/-!
# The segment table

What the table says of a segment follows from the history: whether `get_segment`
has tried the segment, whether it could be erased, and whether an area is still
open there.
-/

namespace Logfs.Mkfs

open Relation (ReflTransGen)

/-- An attempt to erase a segment, in `get_segment` or in the scan of `mtd_prepare_sb`. -/
inductive Try where
  | erase (ok : Bool)
  | scan (ok : Bool)
deriving DecidableEq, Repr

/-- The last attempt to erase a segment. -/
def lastTry (segno : Nat) : List Event → Option Try
  | [] => none
  | .erase i ok :: tr => if i = segno then some (.erase ok) else lastTry segno tr
  | .scan i ok :: tr => if i = segno then some (.scan ok) else lastTry segno tr
  | _ :: tr => lastTry segno tr

def SegEntry.zero : SegEntry := ⟨0, 0⟩

def badEntry : SegEntry := ⟨badseg, reserved⟩

/-- The table, with the segments in `R` reserved besides those `get_segment` has returned. -/
structure Table (c : Cfg) (R : Nat → Prop) (s : Sb) : Prop where
  lastseg_le : s.lastseg ≤ c.noSegs
  unused : ∀ i, s.lastseg ≤ i → ¬ R i → s.segmentEntry i = .zero
  used : ∀ i, i < s.lastseg ∨ R i → s.segmentEntry i = .zero →
    ∃ l, isOpen l s.trace = true ∧ (s.area l).segno = i
  open_lt : ∀ l, isOpen l s.trace = true → (s.area l).segno < s.lastseg
  open_try : ∀ l, isOpen l s.trace = true →
    lastTry (s.area l).segno s.trace = some (.erase true)
  failed : ∀ i, lastTry i s.trace = some (.erase false) → s.segmentEntry i = badEntry
  bad : ∀ i, (s.segmentEntry i).ecLevel = badseg → .erase i false ∈ s.trace
  scanned : ∀ i, lastTry i s.trace = some (.scan false) → (s.segmentEntry i).ecLevel ≠ badseg

section Steps

variable {c : Cfg} {R : Nat → Prop} {s s1 s' : Sb} {segno : Nat}

theorem reservedEntry_ne_zero : reservedEntry ≠ .zero := by decide

theorem reservedEntry_ecLevel : reservedEntry.ecLevel ≠ badseg := by decide

theorem areaEntry_ecLevel {l : Nat} {a : Area} : (areaEntry l a).ecLevel ≠ badseg := by
  simp only [areaEntry, ecLevel, badseg]
  omega

theorem areaEntry_ne_zero {l : Nat} {a : Area} : areaEntry l a ≠ .zero := by
  intro h
  have := congrArg SegEntry.ecLevel h
  simp only [areaEntry, ecLevel, SegEntry.zero] at this
  omega

theorem table_zero (os : List Outcome) : Table c (fun _ => False) (Sb.zero os) where
  lastseg_le := Nat.zero_le _
  unused _ _ _ := rfl
  used i h _ := absurd h (by simp [Sb.zero])
  open_lt l h := by cases h
  open_try l h := by cases h
  failed i h := by cases h
  bad i h := by cases h
  scanned i h := by cases h

/-- A segment has been tried and its entry set. -/
structure TriedEntry (c : Cfg) (e : SegEntry) (ok : Bool) (s s' : Sb) : Prop where
  lt : s.lastseg < c.noSegs
  lastseg : s'.lastseg = s.lastseg + 1
  entry : s'.segmentEntry = Function.update s.segmentEntry s.lastseg e
  area : s'.area = s.area
  isOpen : ∀ l, isOpen l s'.trace = isOpen l s.trace
  lastTry : ∀ i, lastTry i s'.trace =
    if s.lastseg = i then some (.erase ok) else lastTry i s.trace
  keeps : ∀ ev ∈ s.trace, ev ∈ s'.trace
  noted : .erase s.lastseg ok ∈ s'.trace

theorem Table.tried {e : SegEntry} {ok : Bool} (ht : Table c R s) (h : TriedEntry c e ok s s')
    (he : e ≠ .zero) (hbad : ok = false → e = badEntry) (hok : ok = true → e.ecLevel ≠ badseg) :
    Table c R s' where
  lastseg_le := by rw [h.lastseg]; exact h.lt
  unused i hi hr := by
    rw [h.lastseg] at hi
    rw [h.entry, Function.update_of_ne (by omega), ht.unused i (by omega) hr]
  used i hi hz := by
    rw [h.lastseg] at hi
    rw [h.entry, Function.update_apply] at hz
    split_ifs at hz with heq
    · exact absurd hz he
    · obtain ⟨l, hl, hseg⟩ := ht.used i (hi.imp_left fun h => by omega) hz
      exact ⟨l, by rw [h.isOpen, hl], by rw [h.area, hseg]⟩
  open_lt l hl := by
    rw [h.isOpen] at hl
    have := ht.open_lt l hl
    rw [h.area, h.lastseg]
    omega
  open_try l hl := by
    rw [h.isOpen] at hl
    have := ht.open_lt l hl
    rw [h.lastTry, h.area, if_neg (by omega), ht.open_try l hl]
  failed i hi := by
    rw [h.lastTry] at hi
    split_ifs at hi with heq
    · subst heq
      simp only [Option.some.injEq, Try.erase.injEq] at hi
      rw [h.entry, Function.update_self, hbad hi]
    · rw [h.entry, Function.update_of_ne (Ne.symm heq), ht.failed i hi]
  bad i hi := by
    rw [h.entry, Function.update_apply] at hi
    split_ifs at hi with heq
    · subst heq
      cases ok with
      | false => exact h.noted
      | true => exact absurd hi (hok rfl)
    · exact h.keeps _ (ht.bad i hi)
  scanned i hi := by
    rw [h.lastTry] at hi
    split_ifs at hi with heq
    · simp at hi
    · rw [h.entry, Function.update_of_ne (Ne.symm heq)]
      exact ht.scanned i hi

theorem Table.badTurn (ht : Table c R s) (h : BadTurn c s s') : Table c R s' := by
  have htried : TriedEntry c badEntry false s s' := by
    rw [h.same]
    exact ⟨h.lt, rfl, rfl, rfl, fun _ => rfl, fun _ => rfl, fun _ => List.mem_cons_of_mem _,
      List.mem_cons_self⟩
  exact ht.tried htried (by decide) (fun _ => rfl) (by simp)

theorem Table.badTurns (ht : Table c R s) (h : ReflTransGen (BadTurn c) s s') : Table c R s' := by
  induction h with
  | refl => exact ht
  | tail _ hb ih => exact ih.badTurn hb

/-- The segment that is taken is the next one, and the counter does not wrap. -/
theorem Taken.lastseg (h : Taken c segno s s1) (hseg : segno < c.noSegs) :
    s1.lastseg = s.lastseg + 1 := by
  have hlt := c.noSegs_lt
  rw [h.same]
  dsimp only
  rw [Nat.mod_eq_of_lt (by omega), h.segno_eq]

theorem Taken.lastTry (h : Taken c segno s s1) (i : Nat) :
    lastTry i s1.trace = if segno = i then some (.erase true) else lastTry i s.trace := by
  rw [h.same]
  rfl

theorem Table.reserve (ht : Table c R s) (h : Taken c segno s s1) (hseg : segno < c.noSegs)
    (journal : Nat → Nat) (ofs : Nat) : Table c R { s1 with
      journalSeg := journal
      sbOfs1 := ofs
      segmentEntry := Function.update s1.segmentEntry segno reservedEntry } := by
  have hlast := h.lastseg hseg
  have hsegno := h.segno_eq
  subst hsegno
  have htried : TriedEntry c reservedEntry true s { s1 with
      journalSeg := journal
      sbOfs1 := ofs
      segmentEntry := Function.update s1.segmentEntry s.lastseg reservedEntry } := by
    refine ⟨hseg, hlast, ?_, h.sameStore.area, h.sameStore.isOpen, ?_, ?_, ?_⟩
    · dsimp only
      rw [h.same]
    · exact h.lastTry
    · dsimp only
      rw [h.same]
      exact fun _ he => List.mem_cons_of_mem _ (List.mem_cons_of_mem _ he)
    · dsimp only
      rw [h.same]
      exact List.mem_cons_of_mem _ List.mem_cons_self
  exact ht.tried htried reservedEntry_ne_zero (by simp) fun _ => reservedEntry_ecLevel

/-- An area has taken a segment. -/
theorem Table.fresh {l : Nat} (ht : Table c R s) (h : Taken c segno s s1) (hseg : segno < c.noSegs)
    (hl : isOpen l s.trace = false) : Table c R { s1 with
      area := Function.update s1.area l (openedArea c l segno)
      trace := .opened l segno :: s1.trace } := by
  have hlast := h.lastseg hseg
  have hsegno := h.segno_eq
  subst hsegno
  have hopen : ∀ l', isOpen l' (.opened l s.lastseg :: s1.trace) =
      if l = l' then true else isOpen l' s.trace := fun l' => by
    rw [isOpen, h.sameStore.isOpen]
  have htry : ∀ i, lastTry i (.opened l s.lastseg :: s1.trace) =
      if s.lastseg = i then some (.erase true) else lastTry i s.trace := h.lastTry
  have hentry : s1.segmentEntry = s.segmentEntry := by rw [h.same]
  have hmem : ∀ e ∈ s.trace, e ∈ Event.opened l s.lastseg :: s1.trace := fun e he => by
    rw [h.same]
    simp [he]
  -- the other areas keep their segments
  have harea : ∀ l', l ≠ l' →
      Function.update s1.area l (openedArea c l s.lastseg) l' = s.area l' := fun l' hl' => by
    rw [Function.update_of_ne (Ne.symm hl'), h.sameStore.area]
  have hnew : (Function.update s1.area l (openedArea c l s.lastseg) l).segno = s.lastseg := by
    rw [Function.update_self]
    rfl
  refine ⟨?_, fun i hi hr => ?_, fun i hi hz => ?_, fun l' hl' => ?_, fun l' hl' => ?_,
    fun i hi => ?_, fun i hi => ?_, fun i hi => ?_⟩
  · rw [hlast]
    exact hseg
  · rw [hlast] at hi
    rw [hentry]
    exact ht.unused i (by omega) hr
  · dsimp only at hi hz ⊢
    rw [hlast] at hi
    rw [hentry] at hz
    by_cases heq : i = s.lastseg
    · subst heq
      exact ⟨l, by rw [hopen, if_pos rfl], hnew⟩
    · obtain ⟨l', hl', hs'⟩ := ht.used i (hi.imp_left fun h => by omega) hz
      have hne : l ≠ l' := by
        rintro rfl
        rw [hl] at hl'
        cases hl'
      exact ⟨l', by rw [hopen, if_neg hne, hl'], by rw [harea l' hne, hs']⟩
  · dsimp only at hl' ⊢
    rw [hopen] at hl'
    split_ifs at hl' with heq
    · subst heq
      rw [hnew, hlast]
      omega
    · rw [harea l' heq, hlast]
      have := ht.open_lt l' hl'
      omega
  · dsimp only at hl' ⊢
    rw [hopen] at hl'
    rw [htry]
    split_ifs at hl' with heq
    · subst heq
      rw [hnew, if_pos rfl]
    · have := ht.open_lt l' hl'
      rw [harea l' heq, if_neg (by omega), ht.open_try l' hl']
  · dsimp only at hi ⊢
    rw [htry] at hi
    split_ifs at hi with heq
    · simp at hi
    · rw [hentry]
      exact ht.failed i hi
  · dsimp only at hi ⊢
    rw [hentry] at hi
    exact hmem _ (ht.bad i hi)
  · dsimp only at hi ⊢
    rw [htry] at hi
    split_ifs at hi with heq
    · simp at hi
    · rw [hentry]
      exact ht.scanned i hi

/-- The table does not depend on what is in the areas. -/
theorem Table.congr (ht : Table c R s) (hlast : s'.lastseg = s.lastseg)
    (hentry : s'.segmentEntry = s.segmentEntry)
    (hopen : ∀ l, isOpen l s'.trace = isOpen l s.trace)
    (harea : ∀ l, (s'.area l).segno = (s.area l).segno)
    (htry : ∀ i, lastTry i s'.trace = lastTry i s.trace)
    (hmem : ∀ e ∈ s.trace, e ∈ s'.trace) : Table c R s' where
  lastseg_le := hlast ▸ ht.lastseg_le
  unused i hi hr := by
    rw [hentry]
    exact ht.unused i (hlast ▸ hi) hr
  used i hi hz := by
    rw [hentry] at hz
    obtain ⟨l, hl, hs⟩ := ht.used i (hlast ▸ hi) hz
    exact ⟨l, by rw [hopen, hl], by rw [harea, hs]⟩
  open_lt l hl := by
    rw [harea, hlast]
    exact ht.open_lt l (hopen l ▸ hl)
  open_try l hl := by
    rw [harea, htry]
    exact ht.open_try l (hopen l ▸ hl)
  failed i hi := by
    rw [hentry]
    exact ht.failed i (htry i ▸ hi)
  bad i hi := hmem _ (ht.bad i (hentry ▸ hi))
  scanned i hi := by
    rw [hentry]
    exact ht.scanned i (htry i ▸ hi)

/-- The segment of an area gets its entry. -/
theorem Table.close {l : Nat} {e : SegEntry} (ht : Table c R s)
    (hl : isOpen l s.trace = true) (hlast : s'.lastseg = s.lastseg)
    (hentry : s'.segmentEntry = Function.update s.segmentEntry (s.area l).segno e)
    (harea : s'.area = s.area)
    (hopen : ∀ l', isOpen l' s'.trace = if l = l' then false else isOpen l' s.trace)
    (htry : ∀ i, lastTry i s'.trace = lastTry i s.trace)
    (hmem : ∀ ev ∈ s.trace, ev ∈ s'.trace) (he : e ≠ .zero) (hbad : e.ecLevel ≠ badseg) : Table c R s' := by
  have hseg := ht.open_lt l hl
  have hrest : ∀ l', isOpen l' s'.trace = true → isOpen l' s.trace = true := fun l' hl' => by
    rw [hopen] at hl'
    split_ifs at hl'
    exact hl'
  have hne : ∀ {i}, lastTry i s.trace ≠ some (.erase true) → i ≠ (s.area l).segno := by
    rintro i hi rfl
    exact hi (ht.open_try l hl)
  refine ⟨hlast ▸ ht.lastseg_le, fun i hi hr => ?_, fun i hi hz => ?_, fun l' hl' => ?_,
    fun l' hl' => ?_, fun i hi => ?_, fun i hi => ?_, fun i hi => ?_⟩
  · rw [hlast] at hi
    rw [hentry, Function.update_of_ne (by omega)]
    exact ht.unused i hi hr
  · rw [hlast] at hi
    rw [hentry, Function.update_apply] at hz
    split_ifs at hz with heq
    · exact absurd hz he
    · obtain ⟨l', hl', hs'⟩ := ht.used i hi hz
      have hll : l ≠ l' := by
        rintro rfl
        exact heq hs'.symm
      exact ⟨l', by rw [hopen, if_neg hll, hl'], by rw [harea, hs']⟩
  · rw [harea, hlast]
    exact ht.open_lt l' (hrest l' hl')
  · rw [harea, htry]
    exact ht.open_try l' (hrest l' hl')
  · rw [htry] at hi
    rw [hentry, Function.update_of_ne (hne (by rw [hi]; decide))]
    exact ht.failed i hi
  · rw [hentry, Function.update_apply] at hi
    split_ifs at hi with heq
    · exact absurd hi hbad
    · exact hmem _ (ht.bad i hi)
  · rw [htry] at hi
    rw [hentry, Function.update_of_ne (hne (by rw [hi]; decide))]
    exact ht.scanned i hi

/-- A step of the object store keeps the table in order. -/
theorem Step.table (h : Step c s s') (ht : Table c R s) : Table c R s' := by
  cases h with
  | create => exact ht.congr rfl rfl (fun _ => rfl) (fun _ => rfl) (fun _ => rfl) fun _ h => h
  | modify => exact ht.congr rfl rfl (fun _ => rfl) (fun _ => rfl) (fun _ => rfl) fun _ h => h
  | bad h => exact ht.badTurn h
  | reserve journal h hseg => exact ht.reserve h hseg journal _
  | fresh _ hclosed h hseg => exact ht.fresh h hseg hclosed
  | append h =>
    refine ht.congr rfl rfl (fun _ => rfl) (fun l => ?_) (fun _ => rfl)
      fun _ => List.mem_cons_of_mem _
    unfold appendTo
    dsimp only
    rw [Function.update_apply]
    split_ifs with hl
    · rw [hl]
      rfl
    · rfl
  | @close l buf s1 hw hseg h =>
    have hsame := h.same
    refine ht.close hw.opened (e := areaEntry l (s.area l)) ?_ ?_ ?_ (fun l' => ?_)
      (fun i => ?_) ?_ areaEntry_ne_zero areaEntry_ecLevel
    · rw [hsame]
    · rw [hsame]
    · rw [hsame]
    · rw [hsame]
      rfl
    · rw [hsame]
      rfl
    · rw [hsame]
      exact fun ev hev => List.mem_cons_of_mem _ (List.mem_append_right _ hev)

/-! ## Runs that do not leave the table -/

/-- An area that is open has a segment behind the table. -/
def Stuck (c : Cfg) (s : Sb) : Prop :=
  ∃ l, isOpen l s.trace = true ∧ c.noSegs ≤ (s.area l).segno

/-- Such an area stays open as long as the areas with these segments do. -/
theorem Stuck.keep (hs : Stuck c s)
    (h : ∀ l, isOpen l s.trace = true → c.noSegs ≤ (s.area l).segno →
      isOpen l s'.trace = true ∧ (s'.area l).segno = (s.area l).segno) : Stuck c s' := by
  obtain ⟨l, hl, hseg⟩ := hs
  obtain ⟨hl', hs'⟩ := h l hl hseg
  exact ⟨l, hl', hs' ▸ hseg⟩

theorem SameStore.stuck (h : SameStore s s') (hs : Stuck c s) : Stuck c s' :=
  hs.keep fun l hl _ => ⟨by rw [h.isOpen, hl], by rw [h.area]⟩

/-- An area that opens is another one. -/
theorem Taken.stuck {l : Nat} (h : Taken c segno s s1) (hl : isOpen l s.trace = false)
    (hs : Stuck c s) : Stuck c { s1 with
      area := Function.update s1.area l (openedArea c l segno)
      trace := .opened l segno :: s1.trace } := by
  refine (h.sameStore.stuck hs).keep fun l' hl' _ => ?_
  have hne : l ≠ l' := by
    rintro rfl
    rw [h.sameStore.isOpen, hl] at hl'
    cases hl'
  refine ⟨by rw [isOpen, if_neg hne, hl'], ?_⟩
  dsimp only
  rw [Function.update_of_ne (Ne.symm hne)]

/-- The area is never written. -/
theorem Step.stuck (h : Step c s s') (hs : Stuck c s) : Stuck c s' := by
  cases h with
  | create => exact hs
  | modify => exact hs
  | bad h => exact h.sameStore.stuck hs
  | reserve _ h => exact h.sameStore.stuck hs
  | fresh _ hclosed h => exact h.stuck hclosed hs
  | append =>
    refine hs.keep fun l hl _ => ⟨hl, ?_⟩
    unfold appendTo
    dsimp only
    rw [Function.update_apply]
    split_ifs with heq
    · rw [heq]
      rfl
    · rfl
  | @close l buf s1 hw hseg h =>
    refine hs.keep fun l' hl' hle => ?_
    rw [h.same]
    refine ⟨?_, rfl⟩
    show (if l = l' then false else isOpen l' s.trace) = true
    rw [if_neg (by rintro rfl; omega), hl']

theorem Overrun.stuck (h : Overrun c s s') : Stuck c s' := by
  cases h with
  | @mk l segno s1 hl hclosed h hseg =>
    refine ⟨l, if_pos rfl, ?_⟩
    dsimp only
    rw [Function.update_self]
    exact hseg

/-- A run that leaves no area behind the table has never gone there. -/
theorem Calm.steps (h : Calm c s s') (hs : ¬ Stuck c s') : ReflTransGen (Step c) s s' := by
  induction h with
  | refl => exact .refl
  | tail _ hstep ih =>
    rcases hstep with hstep | hstep
    · exact (ih (mt hstep.stuck hs)).tail hstep
    · exact absurd hstep.stuck hs

theorem Table.steps (ht : Table c R s) (h : ReflTransGen (Step c) s s') : Table c R s' := by
  induction h with
  | refl => exact ht
  | tail _ hstep ih => exact hstep.table ih

end Steps

/-! ## The table after `prepare_sb` -/

section Prepared

variable {c : Cfg} {s s1 s' : Sb} {os : List Outcome} {k k1 k2 : Nat}

/-- After the first superblock has been placed the table ends with its segment. -/
theorem First.table (h : First c k (Sb.zero os) s') :
    Table c (fun _ => False) s' ∧ s'.lastseg = k + 1 ∧ s'.segmentEntry k = reservedEntry ∧
      (∀ l, isOpen l s'.trace = false) ∧ ∀ i, lastTry i s'.trace ≠ some (.scan false) := by
  obtain ⟨s1, s2, hbad, ht, hs'⟩ := h.chain
  have htab := (table_zero (c := c) os).badTurns hbad
  have hsame := (SameStore.of_badTurns hbad).trans ht.sameStore
  have hscan : ∀ i, lastTry i s1.trace ≠ some (.scan false) := by
    clear ht htab hsame
    induction hbad with
    | refl => exact fun i h => by cases h
    | tail _ hb ih =>
      intro i hi
      rw [hb.same, lastTry] at hi
      split_ifs at hi
      · cases hi
      · exact ih i hi
  rw [hs']
  refine ⟨htab.reserve ht h.lt s2.journalSeg _, ?_, Function.update_self .., fun l => ?_,
    fun i hi => ?_⟩
  · dsimp only
    rw [ht.lastseg h.lt, ht.segno_eq]
  · dsimp only
    rw [hsame.isOpen]
    rfl
  · dsimp only at hi
    rw [ht.lastTry] at hi
    split_ifs at hi
    · cases hi
    · exact hscan i hi

theorem lastTry_scans {fails tr : List Event} {i k : Nat}
    (hf : ∀ e ∈ fails, ∃ j, e = .scan j false ∧ k < j) :
    lastTry i (fails ++ tr) = lastTry i tr ∨
      k < i ∧ lastTry i (fails ++ tr) = some (.scan false) := by
  induction fails with
  | nil => exact Or.inl rfl
  | cons e fails ih =>
    obtain ⟨j, rfl, hj⟩ := hf _ List.mem_cons_self
    rw [List.cons_append, lastTry]
    split_ifs with heq
    · exact Or.inr ⟨heq ▸ hj, rfl⟩
    · exact ih fun e he => hf e (List.mem_cons_of_mem _ he)

theorem isOpen_scans {fails tr : List Event} {l k : Nat}
    (hf : ∀ e ∈ fails, ∃ j, e = .scan j false ∧ k < j) : isOpen l (fails ++ tr) = isOpen l tr := by
  induction fails with
  | nil => rfl
  | cons e fails ih =>
    obtain ⟨j, rfl, -⟩ := hf _ List.mem_cons_self
    exact ih fun e he => hf e (List.mem_cons_of_mem _ he)

/-- A segment `k` is reserved, after attempts to erase it and segments behind it that are free. -/
theorem Table.second (ht : Table c (fun _ => False) s) (hopen : ∀ l, isOpen l s.trace = false)
    (hscan : ∀ i, lastTry i s.trace ≠ some (.scan false)) (hbad : s.segmentEntry k ≠ badEntry)
    (hfree : ∀ i, k < i → s.segmentEntry i = .zero) (hlast : s'.lastseg = s.lastseg)
    (hentry : s'.segmentEntry = Function.update s.segmentEntry k reservedEntry)
    (hopen' : ∀ l, isOpen l s'.trace = false)
    (htry : ∀ i, lastTry i s'.trace = lastTry i s.trace ∨
      k = i ∧ lastTry i s'.trace = some (.scan true) ∨
      k < i ∧ lastTry i s'.trace = some (.scan false))
    (hmem : ∀ e ∈ s.trace, e ∈ s'.trace) : Table c (· = k) s' where
  lastseg_le := hlast ▸ ht.lastseg_le
  unused i hi hr := by
    rw [hentry, Function.update_of_ne hr]
    exact ht.unused i (hlast ▸ hi) id
  used i hi hz := by
    rw [hentry, Function.update_apply] at hz
    split_ifs at hz with heq
    · exact absurd hz reservedEntry_ne_zero
    · obtain ⟨l, hl, -⟩ := ht.used i (hi.imp (hlast ▸ ·) heq) hz
      rw [hopen] at hl
      cases hl
  open_lt l hl := by
    rw [hopen'] at hl
    cases hl
  open_try l hl := by
    rw [hopen'] at hl
    cases hl
  failed i hi := by
    rcases htry i with h | ⟨-, h⟩ | ⟨-, h⟩
    · have hb := ht.failed i (h ▸ hi)
      have hne : i ≠ k := by
        rintro rfl
        exact hbad hb
      rw [hentry, Function.update_of_ne hne, hb]
    · rw [h] at hi
      cases hi
    · rw [h] at hi
      cases hi
  bad i hi := by
    rw [hentry, Function.update_apply] at hi
    split_ifs at hi with heq
    · exact absurd hi reservedEntry_ecLevel
    · exact hmem _ (ht.bad i hi)
  scanned i hi := by
    rcases htry i with h | ⟨-, h⟩ | ⟨hlt, -⟩
    · exact absurd (h ▸ hi) (hscan i)
    · rw [h] at hi
      cases hi
    · rw [hentry, Function.update_of_ne (by omega), hfree i hlt]
      decide

/-- After `prepare_sb` the segment of the second superblock is reserved as well. -/
theorem Prepared.table (h : Prepared c k1 k2 (Sb.zero os) s') :
    Table c (· = k2) s' ∧ k2 < c.noSegs ∧ ∀ l, isOpen l s'.trace = false := by
  obtain ⟨s1, s2, h1, h2, rfl⟩ := h.steps
  obtain ⟨ht, hlast, hentry, hopen, hscan⟩ := h1.table
  have hle := h2.le h1
  have hfree : ∀ i, k2 < i → s1.segmentEntry i = .zero := fun i hi =>
    ht.unused i (by omega) id
  have hbad : s1.segmentEntry k2 ≠ badEntry := by
    rcases Nat.eq_or_lt_of_le hle with rfl | hlt
    · rw [hentry]
      decide
    · rw [ht.unused k2 (by omega) id]
      decide
  refine ⟨?_, h2.lt, ?_⟩
  · cases h2 with
    | bdev _ _ _ h =>
      rw [h]
      exact ht.second hopen hscan hbad hfree rfl rfl hopen (fun _ => Or.inl rfl)
        fun _ => List.mem_cons_of_mem _
    | mtd _ h =>
      obtain ⟨fails, hf, hs2⟩ := h.same
      rw [hs2]
      refine ht.second hopen hscan hbad hfree rfl rfl (fun l => ?_) (fun i => ?_) fun e he => ?_
      · show isOpen l (fails ++ s1.trace) = false
        rw [isOpen_scans hf, hopen]
      · show lastTry i (.scan k2 true :: (fails ++ s1.trace)) = _ ∨ _ ∧
          lastTry i (.scan k2 true :: (fails ++ s1.trace)) = _ ∨ _ ∧
          lastTry i (.scan k2 true :: (fails ++ s1.trace)) = _
        rw [lastTry]
        split_ifs with heq
        · exact Or.inr (Or.inl ⟨heq, rfl⟩)
        · exact (lastTry_scans hf).imp_right Or.inr
      · simp [he]
  · intro l
    show isOpen l s2.trace = false
    cases h2 with
    | bdev _ _ _ h => rw [h]; exact hopen l
    | mtd _ h =>
      obtain ⟨fails, hf, hs2⟩ := h.same
      rw [hs2]
      show isOpen l (fails ++ s1.trace) = false
      rw [isOpen_scans hf, hopen]

end Prepared

end Logfs.Mkfs
