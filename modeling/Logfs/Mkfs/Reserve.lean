import Logfs.Mkfs.Copies

/-!
# The segment of the second superblock

`get_segment` hands out what its counter says and does not look at
`segment_entry`.  Whether it comes to the segment that was reserved for the
second superblock depends on the device.  As long as it does not, each segment it
returns has an entry that is all zero.
-/

namespace Logfs.Mkfs

open Relation (ReflTransGen)

/-! ## Segments taken -/

def Event.isPrepared : Event → Bool
  | .prepared => true
  | _ => false

/-- The values of the counter at which a turn of `get_segment` could erase a segment, up to the
return of `prepare_sb`. -/
def takenAfter : List Event → List Nat
  | [] => []
  | .prepared :: _ => []
  | .erase segno true :: tr => segno :: takenAfter tr
  | _ :: tr => takenAfter tr

/-- The same, or nothing when `prepare_sb` has not returned. -/
def takenSince (tr : List Event) : List Nat :=
  if tr.any Event.isPrepared then takenAfter tr else []

/-- No turn of `get_segment` since `prepare_sb` has found the counter at the segment of the second
superblock, or behind the last segment, and could erase there. -/
def SparesSecond (c : Cfg) (s : Sb) : Prop :=
  ∀ segno ∈ takenSince s.trace, segno < c.noSegs ∧ segno ≠ secondSegno c s

instance (c : Cfg) (s : Sb) : Decidable (SparesSecond c s) :=
  inferInstanceAs (Decidable (∀ segno ∈ takenSince s.trace, _))

/-- No segment is used twice: `get_segment` returns none that is reserved or bad, `finish_area`
overwrites no entry that is reserved, and the segment of the second superblock is not that of an
area, nor, when the superblocks are written, one of the journal. -/
structure Unmixed (c : Cfg) (s : Sb) : Prop where
  got : ∀ segno e, .got segno e ∈ s.trace → e.valid ≠ reserved ∧ e.ecLevel ≠ badseg
  closed : ∀ l segno old new, .closed l segno old new ∈ s.trace → old.valid ≠ reserved
  opened : ∀ l, .opened l (secondSegno c s) ∉ s.trace
  journal : ∀ w k, .issue w ∈ s.trace → w.target = .super k →
    ∀ i, i < c.noJournalSegs → s.journalSeg i ≠ secondSegno c s

/-! ## How a run goes on -/

/-- The events noted from `s` to `s'` are such events. -/
def Adds (P : Event → Prop) (s s' : Sb) : Prop :=
  ∃ new, s'.trace = new ++ s.trace ∧ ∀ e ∈ new, P e

/-- The run has gone on, and the second superblock has stayed where it is. -/
structure Continues (s s' : Sb) : Prop where
  trace : Adds (·.isPrepared = false) s s'
  sbOfs2 : s'.sbOfs2 = s.sbOfs2

/-- A write was issued, or has returned. -/
def Event.isWrite : Event → Prop
  | .issue _ => True
  | .done _ _ => True
  | _ => False

/-- The run has gone on with writes only. -/
structure OnlyWrites (s s' : Sb) : Prop where
  trace : Adds Event.isWrite s s'
  sbOfs2 : s'.sbOfs2 = s.sbOfs2
  journalSeg : s'.journalSeg = s.journalSeg

section Continue

variable {c : Cfg} {s s1 s' : Sb} {segno : Nat} {P P' : Event → Prop}

theorem Adds.refl (s : Sb) : Adds P s s := ⟨[], rfl, by simp⟩

theorem Adds.trans (h : Adds P s s1) (h1 : Adds P s1 s') : Adds P s s' := by
  obtain ⟨new, h, hn⟩ := h
  obtain ⟨new1, h1, hn1⟩ := h1
  refine ⟨new1 ++ new, by rw [h1, h, List.append_assoc], fun e he => ?_⟩
  exact (List.mem_append.1 he).elim (hn1 e) (hn e)

theorem Adds.mono (h : Adds P s s') (hP : ∀ e, P e → P' e) : Adds P' s s' := by
  obtain ⟨new, h, hn⟩ := h
  exact ⟨new, h, fun e he => hP e (hn e he)⟩

theorem Adds.forall (h : Adds P s s') (hs : ∀ e ∈ s.trace, P e) : ∀ e ∈ s'.trace, P e := by
  obtain ⟨new, h, hn⟩ := h
  intro e he
  rw [h] at he
  exact (List.mem_append.1 he).elim (hn e) (hs e)

theorem Event.isWrite.not_prepared {e : Event} (h : e.isWrite) : e.isPrepared = false := by
  cases e with
  | prepared => exact h.elim
  | erase | scan | got | opened | append | issue | done | closed => rfl

theorem Continues.refl (s : Sb) : Continues s s := ⟨.refl s, rfl⟩

theorem Continues.trans (h : Continues s s1) (h1 : Continues s1 s') : Continues s s' :=
  ⟨h.trace.trans h1.trace, h1.sbOfs2.trans h.sbOfs2⟩

theorem OnlyWrites.trans (h : OnlyWrites s s1) (h1 : OnlyWrites s1 s') : OnlyWrites s s' :=
  ⟨h.trace.trans h1.trace, h1.sbOfs2.trans h.sbOfs2, h1.journalSeg.trans h.journalSeg⟩

theorem OnlyWrites.continues (h : OnlyWrites s s') : Continues s s' :=
  ⟨h.trace.mono fun _ => Event.isWrite.not_prepared, h.sbOfs2⟩

theorem Continues.mem (h : Continues s s') {e : Event} (he : e ∈ s.trace) : e ∈ s'.trace := by
  obtain ⟨new, h, -⟩ := h.trace
  rw [h]
  exact List.mem_append_right _ he

theorem Continues.secondSegno (h : Continues s s') : secondSegno c s' = secondSegno c s := by
  unfold Mkfs.secondSegno
  rw [h.sbOfs2]

theorem takenAfter_append {new : List Event} (h : ∀ e ∈ new, e.isPrepared = false)
    (tr : List Event) : takenAfter (new ++ tr) = takenAfter new ++ takenAfter tr := by
  induction new with
  | nil => rfl
  | cons e new ih =>
    have ih := ih fun e he => h e (List.mem_cons_of_mem _ he)
    cases e with
    | prepared => exact absurd (h _ List.mem_cons_self) (by decide)
    | erase segno ok =>
      cases ok with
      | true => exact congrArg (segno :: ·) ih
      | false => exact ih
    | scan | got | opened | append | issue | done | closed => exact ih

theorem Continues.taken (h : Continues s s') (hs : segno ∈ takenAfter s.trace) :
    segno ∈ takenAfter s'.trace := by
  obtain ⟨new, h, hn⟩ := h.trace
  rw [h, takenAfter_append hn]
  exact List.mem_append_right _ hs

/-- Nothing is taken by writes. -/
theorem OnlyWrites.taken (h : OnlyWrites s s') : takenAfter s'.trace = takenAfter s.trace := by
  obtain ⟨new, h, hn⟩ := h.trace
  rw [h]
  clear h
  induction new with
  | nil => rfl
  | cons e new ih =>
    have he := hn e List.mem_cons_self
    have ih := ih fun e he => hn e (List.mem_cons_of_mem _ he)
    cases e with
    | issue | done => exact ih
    | erase | scan | got | opened | append | closed | prepared => exact he.elim

theorem BadTurn.continues (h : BadTurn c s s') : Continues s s' := by
  rw [h.same]
  exact ⟨⟨[_], rfl, by simp [Event.isPrepared]⟩, rfl⟩

theorem Taken.continues (h : Taken c segno s s') : Continues s s' := by
  rw [h.same]
  exact ⟨⟨[_, _], rfl, by simp [Event.isPrepared]⟩, rfl⟩

theorem Taken.takenAfter (h : Taken c segno s s') :
    takenAfter s'.trace = segno :: takenAfter s.trace := by
  rw [h.same]
  rfl

theorem CutTurn.continues (h : CutTurn c s s') : Continues s s' := by
  refine ⟨?_, by rw [h.same]⟩
  rcases h.trace with h | h
  · exact ⟨[], h, by simp⟩
  · exact ⟨[_], h, by simp [Event.isPrepared]⟩

theorem Did.onlyWrites {evs : List Event} {ofs n : Nat} {buf : Buf} (h : Did evs ofs n buf s s')
    (he : ∀ e ∈ evs, e.isWrite) : OnlyWrites s s' := by
  rw [h.same]
  exact ⟨⟨evs, rfl, he⟩, rfl, rfl⟩

theorem Step.continues (h : Step c s s') : Continues s s' := by
  cases h with
  | create => exact ⟨⟨[], rfl, by simp⟩, rfl⟩
  | modify => exact ⟨⟨[], rfl, by simp⟩, rfl⟩
  | bad h => exact h.continues
  | reserve _ h => exact ⟨h.continues.trace, h.continues.sbOfs2⟩
  | fresh _ _ h =>
    exact h.continues.trans ⟨⟨[_], rfl, by simp [Event.isPrepared]⟩, rfl⟩
  | append => exact ⟨⟨[_], rfl, by simp [Event.isPrepared]⟩, rfl⟩
  | close _ _ h =>
    exact (h.onlyWrites (by simp [Event.isWrite])).continues.trans
      ⟨⟨[_], rfl, by simp [Event.isPrepared]⟩, rfl⟩

theorem Overrun.continues (h : Overrun c s s') : Continues s s' := by
  cases h with
  | mk _ _ h => exact h.continues.trans ⟨⟨[_], rfl, by simp [Event.isPrepared]⟩, rfl⟩

theorem Calm.continues (h : Calm c s s') : Continues s s' := by
  induction h with
  | refl => exact .refl s
  | tail _ hstep ih => exact ih.trans (hstep.elim Step.continues Overrun.continues)

theorem FailedWrite.onlyWrites (h : FailedWrite c s s') : OnlyWrites s s' := by
  cases h with
  | mk _ _ h => exact h.onlyWrites (by simp [Event.isWrite])

theorem Halt.continues (h : Halt c s s') : Continues s s' := by
  cases h with
  | here => exact .refl s
  | turn h => exact h.continues
  | taken _ h => exact ⟨h.continues.trace, h.continues.sbOfs2⟩
  | cut _ _ h => exact (h.onlyWrites (by simp [Event.isWrite])).continues
  | wrote _ h => exact (h.onlyWrites (by simp [Event.isWrite])).continues

/-- `make_journal` does nothing but write. -/
theorem makeJournal_onlyWrites (s : Sb) :
    Wp (makeJournal c) (fun _ s' => OnlyWrites s s') (fun _ s' => OnlyWrites s s') s := by
  refine (makeJournal_spec (D := fun _ _ => True) fun _ _ _ => trivial).mono ?_ ?_
  · rintro ret s1 ⟨j, je, -, ⟨-, hd⟩ | ⟨-, n, -, hd⟩⟩
    · obtain ⟨h1, h2, h3⟩ := hd.onlyWrites (by simp [Event.isWrite])
      exact ⟨h1, h2, h3⟩
    · obtain ⟨h1, h2, h3⟩ := hd.onlyWrites (by simp [Event.isWrite])
      exact ⟨h1, h2, h3⟩
  · rintro e s1 ⟨je, rfl | ⟨j, n, -, -, hd⟩⟩
    · exact ⟨⟨[], rfl, by simp⟩, rfl, rfl⟩
    · obtain ⟨h1, h2, h3⟩ := hd.onlyWrites (by simp [Event.isWrite])
      exact ⟨h1, h2, h3⟩

theorem devWrite_onlyWrites (t : Target) (ofs size : Nat) (buf : Buf) (s : Sb) :
    Wp (devWrite t ofs size buf) (fun _ s' => OnlyWrites s s') (fun _ s' => OnlyWrites s s') s := by
  refine (devWrite_spec t ofs size buf s).mono ?_ ?_
  · rintro ret s1 (⟨-, hd⟩ | ⟨-, n, -, hd⟩)
    · exact hd.onlyWrites (by simp [Event.isWrite])
    · exact hd.onlyWrites (by simp [Event.isWrite])
  · rintro e s1 ⟨n, -, hd⟩
    exact hd.onlyWrites (by simp [Event.isWrite])

theorem makeSuper_onlyWrites (s : Sb) :
    Wp (makeSuper c) (fun _ s' => OnlyWrites s s') (fun _ s' => OnlyWrites s s') s := by
  unfold makeSuper
  rw [wp_bind, wp_get]
  refine (devWrite_onlyWrites _ _ _ _ s).bind fun ret s1 h1 => ?_
  rw [wp_ite]
  exact ⟨fun _ => (devWrite_onlyWrites _ _ _ _ s1).mono (fun _ _ => h1.trans) fun _ _ => h1.trans,
    fun _ => h1⟩

end Continue

/-! ## Entries of the segments taken -/

/-- Segments in use get an entry for the first time, and `k` is not used. -/
def Event.Spares (k : Nat) : Event → Prop
  | .got _ e => e = .zero
  | .opened _ segno => segno ≠ k
  | .closed _ _ old _ => old = .zero
  | _ => True

/-- `k` is reserved, and no segment has been used twice. -/
structure Clean (c : Cfg) (k : Nat) (s : Sb) : Prop where
  table : Table c (· = k) s
  trace : ∀ e ∈ s.trace, e.Spares k
  open_entry : ∀ l, isOpen l s.trace = true → s.segmentEntry (s.area l).segno = .zero

/-- The turns of `get_segment` since `prepare_sb` have spared `k`. -/
def Spared (c : Cfg) (k : Nat) (s : Sb) : Prop :=
  ∀ segno ∈ takenAfter s.trace, segno < c.noSegs ∧ segno ≠ k

section Clean

variable {c : Cfg} {s s1 s' : Sb} {k segno : Nat}

theorem Continues.spared (h : Continues s s') (hs : Spared c k s') : Spared c k s :=
  fun segno hseg => hs segno (h.taken hseg)

/-- Steps that note nothing about segments keep what is known of them. -/
theorem Clean.congr (hc : Clean c k s) (ht : Table c (· = k) s')
    (hnew : Adds (Event.Spares k) s s')
    (hopen : ∀ l, isOpen l s'.trace = true → isOpen l s.trace = true ∧
      s'.segmentEntry (s'.area l).segno = s.segmentEntry (s.area l).segno) : Clean c k s' where
  table := ht
  trace := hnew.forall hc.trace
  open_entry l hl := by
    obtain ⟨h, heq⟩ := hopen l hl
    rw [heq, hc.open_entry l h]

/-- A segment that is not `k` has no entry yet when it is taken. -/
theorem Table.taken_entry (ht : Table c (· = k) s) (h : Taken c segno s s1) (hk : segno ≠ k) :
    s.segmentEntry segno = .zero :=
  ht.unused segno h.segno_eq.ge hk

theorem Taken.adds_spares (ht : Table c (· = k) s) (h : Taken c segno s s1) (hk : segno ≠ k) :
    Adds (Event.Spares k) s s1 := by
  refine ⟨[_, _], by rw [h.same]; rfl, ?_⟩
  simp [Event.Spares, ht.taken_entry h hk]

theorem Step.clean (h : Step c s s') (hcount : Counted c s) (hs : Spared c k s')
    (hc : Clean c k s) : Clean c k s' := by
  have ht := h.table hc.table
  cases h with
  | create => exact ⟨ht, hc.trace, hc.open_entry⟩
  | modify => exact ⟨ht, hc.trace, hc.open_entry⟩
  | bad h =>
    refine hc.congr ht ⟨[_], by rw [h.same]; rfl, by simp [Event.Spares]⟩ fun l hl => ?_
    rw [h.sameStore.isOpen] at hl
    have hlt := hc.table.open_lt l hl
    rw [h.sameStore.area, h.same]
    exact ⟨hl, Function.update_of_ne (by omega) _ _⟩
  | @reserve segno s1 journal h =>
    have hk := (hs segno (h.takenAfter ▸ List.mem_cons_self)).2
    obtain ⟨new, htr, hn⟩ := h.adds_spares hc.table hk
    refine hc.congr ht ⟨new, htr, hn⟩ fun l hl => ?_
    have hl : isOpen l s1.trace = true := hl
    rw [h.sameStore.isOpen] at hl
    have hlt := hc.table.open_lt l hl
    have hseg := h.segno_eq
    dsimp only
    rw [h.sameStore.area, Function.update_of_ne (by omega), h.same]
    exact ⟨hl, rfl⟩
  | @fresh l segno s1 hl hclosed h =>
    have hk := (hs segno (h.takenAfter ▸ List.mem_cons_self)).2
    have hentry : s1.segmentEntry = s.segmentEntry := by rw [h.same]
    refine ⟨ht, ?_, fun l' hl' => ?_⟩
    · exact List.forall_mem_cons.2 ⟨hk, (h.adds_spares hc.table hk).forall hc.trace⟩
    · dsimp only at hl' ⊢
      rw [isOpen, h.sameStore.isOpen] at hl'
      rw [hentry, Function.update_apply]
      split_ifs at hl' ⊢ with h1 h2 h2
      · exact hc.table.taken_entry h hk
      · exact absurd h1.symm h2
      · exact absurd h2.symm h1
      · rw [h.sameStore.area, hc.open_entry l' hl']
  | @append o h =>
    refine hc.congr ht ⟨[_], rfl, by simp [Event.Spares]⟩ fun l hl => ⟨hl, ?_⟩
    unfold appendTo
    dsimp only
    rw [Function.update_apply]
    split_ifs with heq
    · rw [heq]
      rfl
    · rfl
  | @close l buf s1 hw hseg h =>
    have hold := hc.open_entry l hw.opened
    rw [h.same] at ht ⊢
    refine hc.congr ht ⟨[_, _, _], rfl, by simp [Event.Spares, hold]⟩ fun l' hl' => ?_
    have hl' : (if l = l' then false else isOpen l' s.trace) = true := hl'
    split_ifs at hl' with heq
    refine ⟨hl', Function.update_of_ne (fun h => heq ?_) _ _⟩
    exact (hcount.distinct l' l hl' hw.opened h).symm

/-- A run that spares `k` has not left the table. -/
theorem Calm.steps_of_spared (h : Calm c s s') (hs : Spared c k s') :
    ReflTransGen (Step c) s s' := by
  induction h with
  | refl => exact .refl
  | tail _ hstep ih =>
    rcases hstep with hstep | hstep
    · exact (ih (hstep.continues.spared hs)).tail hstep
    · cases hstep with
      | mk _ _ h hseg =>
        have := (hs _ (h.takenAfter ▸ List.mem_cons_self)).1
        omega

theorem Clean.steps (hc : Clean c k s) (hb : Blank c s) (h : ReflTransGen (Step c) s s')
    (hs : Spared c k s') : Clean c k s' := by
  induction h with
  | refl => exact hc
  | tail h1 hstep ih =>
    have hcount := hb.counted.steps hb.fillings h1
    exact hstep.clean hcount hs (ih (hstep.continues.spared hs))

end Clean

/-! ## `prepare_sb` -/

section Prepare

variable {c : Cfg} {s s' : Sb} {k k1 k2 : Nat} {os : List Outcome}

theorem badTurns_spares (h : ReflTransGen (BadTurn c) s s') : Adds (Event.Spares k) s s' := by
  induction h with
  | refl => exact .refl s
  | tail _ hb ih => exact ih.trans ⟨[_], by rw [hb.same]; rfl, by simp [Event.Spares]⟩

theorem CutTurn.spares (h : CutTurn c s s') : Adds (Event.Spares k) s s' := by
  rcases h.trace with h | h
  · exact ⟨[], h, by simp⟩
  · exact ⟨[_], h, by simp [Event.Spares]⟩

/-- The segment of the first superblock has no entry yet. -/
theorem prepareFirst_spares (os : List Outcome) :
    Wp (prepareFirst c) (fun _ s' => Adds (Event.Spares k) (Sb.zero os) s')
      (fun _ s' => Adds (Event.Spares k) (Sb.zero os) s') (Sb.zero os) := by
  unfold prepareFirst
  refine (getSegment_spec c _).seq ?_ ?_
  · rintro segno s2 ⟨s1, hbad, ht⟩
    have hentry : s1.segmentEntry segno = .zero :=
      ((table_zero os).badTurns hbad).unused segno ht.segno_eq.ge id
    have hadds : Adds (Event.Spares k) (Sb.zero os) s2 := by
      refine (badTurns_spares hbad).trans ⟨[_, _], by rw [ht.same]; rfl, ?_⟩
      simp [Event.Spares, hentry]
    unfold reserveEntry
    rw [wp_bind]
    exact wp_setEntry (fun _ => hadds) hadds
  · rintro e s2 ⟨s1, hbad, rfl | h1⟩
    · exact badTurns_spares hbad
    · exact (badTurns_spares hbad).trans h1.spares

theorem mtdPrepareLoop_spares : ∀ (n segno : Nat) (s : Sb),
    Wp (mtdPrepareLoop c n segno) (fun _ s' => Adds (Event.Spares k) s s')
      (fun _ s' => Adds (Event.Spares k) s s') s := by
  intro n
  induction n with
  | zero => exact fun _ s => .refl s
  | succ n ih =>
    intro segno s
    unfold mtdPrepareLoop
    refine (mtdErase_cases _ _ s).seq ?_ fun _ s1 h1 => h1 ▸ .refl s1
    rintro ret s1 ⟨hsame, -⟩
    have hone : Adds (Event.Spares k) s
        { s1 with trace := .scan segno (decide (ret = 0)) :: s1.trace } := by
      rw [hsame]
      exact ⟨[_], rfl, by simp [Event.Spares]⟩
    rw [wp_bind, wp_note, wp_ite]
    refine ⟨fun _ => ?_, fun _ => ?_⟩
    · exact (ih (segno - 1) _).mono (fun _ _ => hone.trans) fun _ _ => hone.trans
    · unfold reserveEntry
      rw [wp_bind]
      exact wp_setEntry (fun _ => hone) hone

theorem prepareSb_spares (os : List Outcome) :
    Wp (prepareSb c) (fun _ s' => Adds (Event.Spares k) (Sb.zero os) s')
      (fun _ s' => Adds (Event.Spares k) (Sb.zero os) s') (Sb.zero os) := by
  unfold prepareSb
  cases c.kind with
  | bdev =>
    unfold bdevPrepareSb
    refine (prepareFirst_spares os).bind fun _ s1 h1 => ?_
    unfold reserveEntry
    dsimp only
    rw [wp_bind]
    exact wp_setEntry (fun _ => h1) h1
  | mtd =>
    unfold mtdPrepareSb
    refine (prepareFirst_spares os).bind fun _ s1 h1 => ?_
    refine (mtdPrepareLoop_spares _ _ s1).seq (fun r s2 h2 => ?_) fun _ _ => h1.trans
    rw [wp_bind, wp_get, wp_ite]
    exact ⟨fun _ => h1.trans h2, fun _ => h1.trans h2⟩

theorem mkfsPrepare_spares (os : List Outcome) :
    Wp (mkfsPrepare c) (fun _ s' => ∀ e ∈ s'.trace, e.Spares k)
      (fun _ s' => ∀ e ∈ s'.trace, e.Spares k) (Sb.zero os) := by
  have hzero : ∀ e ∈ (Sb.zero os).trace, e.Spares k := by simp [Sb.zero]
  unfold mkfsPrepare orFail
  rw [wp_bind]
  refine (prepareSb_spares os).seq (fun ret s1 h1 => ?_) fun _ _ h => h.forall hzero
  rw [wp_ite]
  refine ⟨fun _ => h1.forall hzero, fun _ => ?_⟩
  exact List.forall_mem_cons.2 ⟨trivial, h1.forall hzero⟩

theorem Prepared.takenAfter (h : Prepared c k1 k2 s s') : takenAfter s'.trace = [] := by
  obtain ⟨s1, s2, -, -, rfl⟩ := h.steps
  rfl

theorem Prepared.isPrepared (h : Prepared c k1 k2 s s') :
    s'.trace.any Event.isPrepared = true := by
  obtain ⟨s1, s2, -, -, rfl⟩ := h.steps
  rfl

theorem Prepared.second_reserved (h : Prepared c k1 k2 (Sb.zero os) s') :
    s'.segmentEntry k2 = reservedEntry := by
  obtain ⟨s1, s2, h1, h2, rfl⟩ := h.steps
  exact ((h2.marked h1).entry k2).2 (Or.inr rfl)

theorem Prepared.clean (h : Prepared c k1 k2 (Sb.zero os) s')
    (hs : ∀ e ∈ s'.trace, e.Spares k2) : Clean c k2 s' where
  table := h.table.1
  trace := hs
  open_entry l hl := by
    rw [h.table.2.2] at hl
    cases hl

end Prepare

/-! ## The journal segments -/

/-- The first `n` journal segments have been taken. -/
def JournalTaken (n : Nat) (s : Sb) : Prop := ∀ i, i < n → s.journalSeg i ∈ takenAfter s.trace

section Journals

variable {c : Cfg} {s s1 s' : Sb} {n segno : Nat}

theorem JournalTaken.congr (hj : JournalTaken n s) (h : Continues s s')
    (hseg : s'.journalSeg = s.journalSeg) : JournalTaken n s' := fun i hi => by
  rw [hseg]
  exact h.taken (hj i hi)

/-- A segment taken for the journal. -/
theorem JournalTaken.update {i m : Nat} (hj : JournalTaken m s) (h : Taken c segno s s1)
    (hn : ∀ j, j < n → j = i ∨ j < m) : JournalTaken n { s1 with
      journalSeg := Function.update s1.journalSeg i segno
      segmentEntry := Function.update s1.segmentEntry segno ⟨ecLevel 1 0, reserved⟩ } := by
  intro j hlt
  dsimp only
  rw [Function.update_apply]
  split_ifs with heq
  · rw [h.takenAfter]
    exact List.mem_cons_self
  · rw [h.sameStore.journalSeg]
    exact h.continues.taken (hj j ((hn j hlt).resolve_left heq))

theorem Step.journalTaken (h : Step c s s') (hj : JournalTaken n s) : JournalTaken n s' := by
  have hcont := h.continues
  cases h with
  | create => exact hj
  | modify => exact hj
  | bad h => exact hj.congr hcont h.sameStore.journalSeg
  | reserve _ h _ hi =>
    obtain ⟨i, rfl⟩ := hi
    exact hj.update h fun j => Or.inr
  | fresh _ _ h => exact hj.congr hcont h.sameStore.journalSeg
  | append => exact hj
  | close _ _ h => exact hj.congr hcont (by rw [h.same])

theorem Calm.journalTaken (h : Calm c s s') (hj : JournalTaken n s) : JournalTaken n s' := by
  induction h with
  | refl => exact hj
  | tail _ hstep ih =>
    rcases hstep with hstep | hstep
    · exact hstep.journalTaken ih
    · have hcont := hstep.continues
      cases hstep with
      | mk _ _ h => exact ih.congr hcont h.sameStore.journalSeg

theorem prepareJournalLoop_taken : ∀ (n i : Nat) (s : Sb), JournalTaken i s →
    Wp (prepareJournalLoop c n i) (fun _ s' => JournalTaken (i + n) s') (fun _ _ => True) s := by
  intro n
  induction n with
  | zero => exact fun _ _ hj => hj
  | succ n ih =>
    intro i s hj
    unfold prepareJournalLoop
    refine (getSegment_spec c s).seq ?_ fun _ _ _ => trivial
    rintro segno s2 ⟨s1, hbad, ht⟩
    have hj := (Calm.of_badTurns hbad).journalTaken hj
    rw [wp_ite]
    refine ⟨fun _ => trivial, fun _ => ?_⟩
    unfold reserveEntry
    rw [wp_bind, wp_modify, wp_bind]
    refine wp_setEntry (fun _ => ?_) trivial
    rw [show i + (n + 1) = i + 1 + n by omega]
    exact ih (i + 1) _ (hj.update ht fun j hlt => by omega)

/-- The journal segments have been taken when the areas have been written. -/
theorem mkfsStore_taken (hready : Ready s) :
    Wp (mkfsStore c) (fun _ s' => JournalTaken c.noJournalSegs s') (fun _ _ => True) s := by
  unfold mkfsStore
  have hj : JournalTaken 0 s := fun i hi => absurd hi (Nat.not_lt_zero i)
  refine ((prepareJournal_spec s).and (prepareJournalLoop_taken _ 0 s hj)).seq ?_
    fun _ _ _ => trivial
  rintro - s1 ⟨⟨h1, -⟩, hj1⟩
  rw [Nat.zero_add] at hj1
  exact (storeFiles_spec (h1.ready hready)).mono (fun _ _ h => h.calm.journalTaken hj1)
    fun _ _ _ => trivial

end Journals

/-! ## When the reserved segment is taken -/

/-- `k` is reserved and not in use. -/
structure Held (k : Nat) (s : Sb) : Prop where
  entry : (s.segmentEntry k).valid = reserved
  area : ∀ l, isOpen l s.trace = true → (s.area l).segno ≠ k
  untaken : k ∉ takenAfter s.trace

/-- `get_segment` has returned `k` while it was reserved. -/
def Reused (k : Nat) (s : Sb) : Prop := ∃ e, .got k e ∈ s.trace ∧ e.valid = reserved

section Held

variable {c : Cfg} {s s1 s' : Sb} {k segno : Nat}

theorem Reused.continues (hr : Reused k s) (h : Continues s s') : Reused k s' := by
  obtain ⟨e, he, hres⟩ := hr
  exact ⟨e, h.mem he, hres⟩

/-- Either another segment is taken, or `k` is reused. -/
theorem Held.taken (hh : Held k s) (h : Taken c segno s s1) :
    segno ≠ k ∧ Held k s1 ∨ Reused k s1 := by
  by_cases heq : segno = k
  · subst heq
    refine Or.inr ⟨_, ?_, hh.entry⟩
    rw [h.same]
    exact List.mem_cons_self
  · refine Or.inl ⟨heq, ?_, fun l hl => ?_, ?_⟩
    · rw [h.same]
      exact hh.entry
    · rw [h.sameStore.area]
      exact hh.area l (h.sameStore.isOpen l ▸ hl)
    · rw [h.takenAfter, List.mem_cons, not_or]
      exact ⟨Ne.symm heq, hh.untaken⟩

/-- An area opens in another segment. -/
theorem Held.opened {l : Nat} (hh : Held k s1) (hk : segno ≠ k) : Held k { s1 with
    area := Function.update s1.area l (openedArea c l segno)
    trace := .opened l segno :: s1.trace } where
  entry := hh.entry
  area l' hl' := by
    dsimp only at hl' ⊢
    rw [isOpen] at hl'
    rw [Function.update_apply]
    split_ifs at hl' ⊢ with h1 h2 h2
    · exact hk
    · exact absurd h1.symm h2
    · exact absurd h2.symm h1
    · exact hh.area l' hl'
  untaken := hh.untaken

theorem Held.entry_update {e : SegEntry} {i : Nat} (hh : Held k s)
    (h : i = k → e.valid = reserved) :
    (Function.update s.segmentEntry i e k).valid = reserved := by
  rw [Function.update_apply]
  split_ifs with heq
  · exact h heq.symm
  · exact hh.entry

theorem Step.held (h : Step c s s') (hh : Held k s) : Held k s' ∨ Reused k s' := by
  cases h with
  | create => exact Or.inl ⟨hh.entry, hh.area, hh.untaken⟩
  | modify => exact Or.inl ⟨hh.entry, hh.area, hh.untaken⟩
  | bad h =>
    rw [h.same]
    exact Or.inl ⟨hh.entry_update fun _ => rfl, hh.area, hh.untaken⟩
  | @reserve segno s1 journal h =>
    refine (hh.taken h).imp_left fun ⟨hk, h1⟩ => ?_
    exact ⟨h1.entry_update fun heq => absurd heq hk, h1.area, h1.untaken⟩
  | @fresh l segno s1 _ _ h =>
    rcases hh.taken h with ⟨hk, h1⟩ | hr
    · exact Or.inl (h1.opened hk)
    · exact Or.inr (hr.continues ⟨⟨[_], rfl, by simp [Event.isPrepared]⟩, rfl⟩)
  | @append o h =>
    refine Or.inl ⟨hh.entry, fun l hl => ?_, hh.untaken⟩
    have hold := hh.area l hl
    unfold appendTo
    dsimp only
    rw [Function.update_apply]
    split_ifs with heq
    · subst heq
      exact hold
    · exact hold
  | @close l buf s1 hw _ h =>
    rw [h.same]
    refine Or.inl ⟨hh.entry_update fun heq => absurd heq (hh.area l hw.opened), fun l' hl' => ?_,
      hh.untaken⟩
    have hl' : (if l = l' then false else isOpen l' s.trace) = true := hl'
    split_ifs at hl'
    exact hh.area l' hl'

theorem Calm.held (h : Calm c s s') (hh : Held k s) : Held k s' ∨ Reused k s' := by
  induction h with
  | refl => exact Or.inl hh
  | tail _ hstep ih =>
    have hcont := hstep.elim Step.continues Overrun.continues
    rcases ih with ih | hr
    · rcases hstep with hstep | hstep
      · exact hstep.held ih
      · cases hstep with
        | mk _ _ h =>
          rcases ih.taken h with ⟨hk, h1⟩ | hr
          · exact Or.inl (h1.opened hk)
          · exact Or.inr (hr.continues ⟨⟨[_], rfl, by simp [Event.isPrepared]⟩, rfl⟩)
    · exact Or.inr (hr.continues hcont)

/-- A run that was stopped has not taken `k` either. -/
theorem Halt.held (h : Halt c s s') (hh : Held k s) : k ∉ takenAfter s'.trace ∨ Reused k s' := by
  cases h with
  | here => exact Or.inl hh.untaken
  | turn h =>
    refine Or.inl ?_
    rcases h.trace with h | h
    · rw [h]
      exact hh.untaken
    · rw [h]
      exact hh.untaken
  | taken _ h => exact (hh.taken h).imp_left fun h1 => h1.2.untaken
  | cut _ _ h =>
    rw [(h.onlyWrites (by simp [Event.isWrite])).taken]
    exact Or.inl hh.untaken
  | wrote _ h =>
    rw [(h.onlyWrites (by simp [Event.isWrite])).taken]
    exact Or.inl hh.untaken

end Held

/-! ## The whole run -/

section Run

variable {c : Cfg} {s s1 s2 s' : Sb} {k k1 k2 : Nat} {os : List Outcome}

/-- No superblock has been written. -/
def NoSuper (s : Sb) : Prop := ∀ w k, .issue w ∈ s.trace → w.target ≠ .super k

theorem FailedWrite.noSuper (h : FailedWrite c s s') (hg : Good s.trace) : NoSuper s' := by
  cases h with
  | @mk l n buf _ _ _ h =>
    intro w k hw
    rw [h.same] at hw
    rcases List.mem_cons.1 hw with hw | hw
    · cases hw
    rcases List.mem_cons.1 hw with hw | hw
    · cases hw
      exact areaWrite_target l _ buf k
    · exact hg.noSuper w k hw

theorem Event.isTry.spares {e : Event} (h : e.isTry) (hs : e.Spares k) : e.Spares k2 := by
  cases e with
  | got => exact hs
  | erase | scan => trivial
  | opened | append | issue | done | closed | prepared => exact h.elim

theorem OnlyWrites.spares (h : OnlyWrites s s') : Adds (Event.Spares k) s s' :=
  h.trace.mono fun e he => by
    cases e with
    | issue | done => trivial
    | erase | scan | got | opened | append | closed | prepared => exact he.elim

theorem Halt.spares (h : Halt c s s') (ht : Table c (· = k) s) (hs : Spared c k s') :
    Adds (Event.Spares k) s s' := by
  cases h with
  | here => exact .refl s
  | turn h => exact h.spares
  | taken _ h =>
    obtain ⟨new, htr, hn⟩ := h.adds_spares ht (hs _ (h.takenAfter ▸ List.mem_cons_self)).2
    exact ⟨new, htr, hn⟩
  | cut _ _ h => exact (h.onlyWrites (by simp [Event.isWrite])).spares
  | wrote _ h => exact (h.onlyWrites (by simp [Event.isWrite])).spares

/-- The segments that are used are free when they are taken. -/
theorem unmixed_of_spares (h : ∀ e ∈ s.trace, e.Spares (secondSegno c s))
    (hj : NoSuper s ∨ JournalTaken c.noJournalSegs s ∧ Spared c (secondSegno c s) s) :
    Unmixed c s where
  got segno e he := by
    rw [show e = .zero from h _ he]
    decide
  closed l segno old new he := by
    rw [show old = .zero from h _ he]
    decide
  opened l he := h _ he rfl
  journal w n hw hn i hi := by
    rcases hj with hj | ⟨hj, hs⟩
    · exact absurd hn (hj w n hw)
    · exact (hs _ (hj i hi)).2

/-- What is shown of the end of a run. -/
structure Verdict (c : Cfg) (s : Sb) : Prop where
  unmixed : SparesSecond c s → Unmixed c s
  untaken : Unmixed c s → secondSegno c s ∉ takenSince s.trace

/-- A run that has ended in `prepare_sb`. -/
theorem OnlyTries.verdict (h : OnlyTries (Sb.zero os) s) (hs : ∀ e ∈ s.trace, e.Spares k) :
    Verdict c s := by
  obtain ⟨new, htr, htry⟩ := id h
  rw [Sb.zero, List.append_nil] at htr
  subst htr
  refine ⟨fun _ => unmixed_of_spares (fun e he => (htry e he).spares (hs e he)) (Or.inl ?_), ?_⟩
  · exact (h.good fun e he => by cases he).noSuper
  · have hprep : s.trace.any Event.isPrepared = false := by
      rw [List.any_eq_false]
      intro e he
      have := htry e he
      cases e with
      | erase | scan | got => exact Bool.false_ne_true
      | opened | append | issue | done | closed | prepared => exact this.elim
    rw [takenSince, hprep]
    simp

/-- A run in which `prepare_sb` has returned. -/
theorem Prepared.verdict (hp : Prepared c k1 k2 (Sb.zero os) s1)
    (hs1 : ∀ e ∈ s1.trace, e.Spares k2) (hcalm : Calm c s1 s2)
    (h2 : Halt c s2 s' ∧ NoSuper s' ∨
      OnlyWrites s2 s' ∧ (NoSuper s' ∨ JournalTaken c.noJournalSegs s')) : Verdict c s' := by
  have hcont2 : Continues s2 s' := h2.elim (fun h => h.1.continues) fun h => h.1.continues
  have hcont := hcalm.continues.trans hcont2
  have hk : Mkfs.secondSegno c s' = k2 := hcont.secondSegno.trans hp.secondSegno
  have hprep : s'.trace.any Event.isPrepared = true := by
    obtain ⟨e, he, hpe⟩ := List.any_eq_true.1 hp.isPrepared
    exact List.any_eq_true.2 ⟨e, hcont.mem he, hpe⟩
  have htaken : takenSince s'.trace = Mkfs.takenAfter s'.trace := if_pos hprep
  constructor
  · intro hspares
    have hs : Spared c k2 s' := fun segno hseg => hk ▸ hspares segno (htaken ▸ hseg)
    have hs2 := hcont2.spared hs
    have hc := (hp.clean hs1).steps hp.blank (hcalm.steps_of_spared hs2) hs2
    refine unmixed_of_spares ?_ ?_
    · rw [hk]
      rcases h2 with ⟨h2, -⟩ | ⟨h2, -⟩
      · exact (h2.spares hc.table hs).forall hc.trace
      · exact h2.spares.forall hc.trace
    · rw [hk]
      rcases h2 with ⟨-, h⟩ | ⟨-, h⟩
      · exact Or.inl h
      · exact h.imp_right fun hj => ⟨hj, hs⟩
  · intro hu
    have hheld : Held k2 s1 := by
      refine ⟨?_, fun l hl => ?_, by rw [hp.takenAfter]; simp⟩
      · rw [hp.second_reserved]
        rfl
      · rw [hp.table.2.2] at hl
        cases hl
    have hend : k2 ∉ Mkfs.takenAfter s'.trace ∨ Reused k2 s' := by
      rcases hcalm.held hheld with hh | hr
      · rcases h2 with ⟨h2, -⟩ | ⟨h2, -⟩
        · exact h2.held hh
        · exact Or.inl (h2.taken ▸ hh.untaken)
      · exact Or.inr (hr.continues hcont2)
    rw [hk, htaken]
    exact hend.resolve_right fun ⟨e, he, hres⟩ => (hu.got k2 e he).1 hres

theorem mkfs_verdict (c : Cfg) (os : List Outcome) :
    Wp (mkfs c) (fun _ s' => Verdict c s') (fun _ s' => Verdict c s') (Sb.zero os) := by
  unfold mkfs
  refine ((mkfsPrepare_spec rfl).and (mkfsPrepare_spares (k := 0) os)).seq ?_
    fun _ _ h => h.1.verdict h.2
  rintro - s1 ⟨⟨k1, k2, hp⟩, hs⟩
  have hs1 : ∀ e ∈ s1.trace, e.Spares k2 := fun e he => by
    rcases hp.blank.trace e he with htry | rfl
    · exact htry.spares (hs e he)
    · trivial
  have hg1 := hp.blank.good
  refine ((mkfsStore_spec hp.ready).and (mkfsStore_taken hp.ready)).seq ?_ ?_
  · rintro - s2 ⟨hr, hj⟩
    -- the rest of the run writes
    have hend : ∀ s', OnlyWrites s2 s' → Verdict c s' := fun s' h =>
      hp.verdict hs1 hr.calm (Or.inr ⟨h, Or.inr (hj.congr h.continues h.journalSeg)⟩)
    refine (wp_orFail (Q := fun _ s' => OnlyWrites s2 s') ?_).bind ?_
    · exact (makeJournal_onlyWrites s2).mono (fun _ s' h => ⟨fun _ => h, fun _ => hend s' h⟩)
        fun _ s' h => hend s' h
    · rintro - s3 h3
      refine wp_orFail ((makeSuper_onlyWrites s3).mono (fun _ s' h => ?_)
        fun _ s' h => hend s' (h3.trans h))
      exact ⟨fun _ => hend s' (h3.trans h), fun _ => hend s' (h3.trans h)⟩
  · rintro e s' ⟨⟨s2, hcalm, hh⟩ | ⟨-, s2, hcalm, hf⟩, -⟩
    · exact hp.verdict hs1 hcalm (Or.inl ⟨hh, (Halted.good ⟨s2, hcalm, hh⟩ hg1).noSuper⟩)
    · exact hp.verdict hs1 hcalm (Or.inr ⟨hf.onlyWrites, Or.inl (hf.noSuper (hcalm.good hg1))⟩)

/-- As long as the counter of `get_segment` does not come to the segment of the second superblock,
or that segment cannot be erased, no segment is used twice; and otherwise one is. -/
theorem unmixed_of_sparesSecond (c : Cfg) (os : List Outcome) :
    let s := after (mkfs c) (Sb.zero os)
    (SparesSecond c s → Unmixed c s) ∧ (Unmixed c s → secondSegno c s ∉ takenSince s.trace) := by
  have h := after_of_wp (mkfs_verdict c os)
  exact ⟨h.unmixed, h.untaken⟩

/-- Flash without bad segments. -/
theorem unmixed_of_sparesSecond_flash :
    let s := after (mkfs flash64) (Sb.zero (List.replicate 40 (.ok 8192)))
    returns (mkfs flash64) (Sb.zero (List.replicate 40 (.ok 8192))) = true ∧
      SparesSecond flash64 s ∧ Unmixed flash64 s := by
  have hs : SparesSecond flash64
      (after (mkfs flash64) (Sb.zero (List.replicate 40 (.ok 8192)))) := by decide +kernel
  exact ⟨by decide +kernel, hs, (unmixed_of_sparesSecond flash64 _).1 hs⟩

/-- `get_segment` returns a segment that is reserved. -/
def Event.gotReserved : Event → Bool
  | .got _ e => e.valid = reserved
  | _ => false

/-- A device of four segments has one for the first superblock, one for the journal, one for the
area of the segment file, and the one that was reserved for the second superblock. -/
def disk4 : Cfg := sampleCfg .bdev 13 4 smallest_gt smallest_le (by decide)

/-- The last segment of a small device gets an area and the second superblock. -/
theorem second_segment_reused :
    ¬ ∀ (c : Cfg) (os : List Outcome), returns (mkfs c) (Sb.zero os) = true →
      Unmixed c (after (mkfs c) (Sb.zero os)) := by
  intro h
  have hu := h disk4 (List.replicate 40 (.ok 8192)) (by decide +kernel)
  have hgot : (after (mkfs disk4) (Sb.zero (List.replicate 40 (.ok 8192)))).trace.any
      Event.gotReserved = true := by decide +kernel
  obtain ⟨e, he, hres⟩ := List.any_eq_true.1 hgot
  cases e with
  | got segno e => exact (hu.got segno e he).1 (of_decide_eq_true hres)
  | erase | scan | opened | append | issue | done | closed | prepared => cases hres

end Run

end Logfs.Mkfs
