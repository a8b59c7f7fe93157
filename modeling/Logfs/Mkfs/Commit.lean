import Logfs.Mkfs.Pointers

/-!
# The superblocks are written last

A superblock is written when all objects and the journal are on the device.  A
write that fails before is the last thing a run does.
-/

namespace Logfs.Mkfs

open Relation (ReflTransGen)

/-! ## Histories -/

/-- No superblock, and nothing that has failed. -/
def Event.isGood : Event → Prop
  | .issue w => ∀ k, w.target ≠ .super k
  | .done w ok => (∀ k, w.target ≠ .super k) ∧ ok = true
  | _ => True

def Good (tr : List Event) : Prop := ∀ e ∈ tr, e.isGood

/-- All objects and the journal have been written, and no write has failed. -/
structure Complete (c : Cfg) (tr : List Event) : Prop where
  objects : ∀ o ∈ objects tr, ∃ w, .done w true ∈ tr ∧ w.target = .area o.area o.segno ∧
    w.size = c.segsize ∧ At w.buf o.used (o.bytes c)
  closed : ∀ l, isOpen l tr = false
  journal : ∃ w, .done w true ∈ tr ∧ w.target = .journal ∧ w.size = c.segsize
  noFailure : ∀ w, .done w false ∉ tr

/-- When a superblock write is issued everything else is complete, and no object comes later. -/
def CommittedLast (c : Cfg) (tr : List Event) : Prop :=
  ∀ later w k earlier, tr = later ++ .issue w :: earlier → w.target = .super k →
    Complete c earlier ∧ objects tr = objects earlier

/-- A failed write that is not one of a superblock ends the run: it is the last event, there is no
superblock write, and the run has `stopped`. -/
def FailsAtOnce (stopped : Prop) (tr : List Event) : Prop :=
  ∀ w, .done w false ∈ tr → (∀ k, w.target ≠ .super k) →
    (∀ w' k, .issue w' ∈ tr → w'.target ≠ .super k) ∧ (∃ earlier, tr = .done w false :: earlier) ∧
      stopped

structure Orderly (c : Cfg) (stopped : Prop) (tr : List Event) : Prop where
  last : CommittedLast c tr
  fails : FailsAtOnce stopped tr

section Histories

variable {c : Cfg} {stopped : Prop} {tr : List Event} {w : DevWrite}

theorem Good.noSuper (h : Good tr) : ∀ w k, .issue w ∈ tr → w.target ≠ .super k :=
  fun _ k hw => h _ hw k

theorem Good.noFailure (h : Good tr) : ∀ w, .done w false ∉ tr := fun _ hw => by
  have := (h _ hw).2
  cases this

theorem Good.cons {e : Event} (h : Good tr) (he : e.isGood) : Good (e :: tr) :=
  List.forall_mem_cons.2 ⟨he, h⟩

theorem Good.issue (h : Good tr) (hw : ∀ k, w.target ≠ .super k) : Good (.issue w :: tr) :=
  List.forall_mem_cons.2 ⟨hw, h⟩

theorem Good.wrote (h : Good tr) (hw : ∀ k, w.target ≠ .super k) :
    Good (.done w true :: .issue w :: tr) :=
  List.forall_mem_cons.2 ⟨⟨hw, rfl⟩, h.issue hw⟩

/-- Without superblock writes there is nothing to show for them. -/
theorem committedLast_of_noSuper (h : ∀ w k, .issue w ∈ tr → w.target ≠ .super k) :
    CommittedLast c tr := by
  rintro later w k earlier rfl hw
  exact absurd hw (h w k (by simp))

theorem Good.orderly (h : Good tr) : Orderly c stopped tr :=
  ⟨committedLast_of_noSuper h.noSuper, fun w hw => absurd hw (h.noFailure w)⟩

/-- A run that ends with a write that has failed. -/
theorem Good.orderly_failed (h : Good tr) (hw : ∀ k, w.target ≠ .super k) (hs : stopped) :
    Orderly c stopped (.done w false :: .issue w :: tr) := by
  have hno : ∀ w' k, .issue w' ∈ (.done w false :: .issue w :: tr : List Event) →
      w'.target ≠ .super k := by
    intro w' k hmem
    rcases List.mem_cons.1 hmem with hmem | hmem
    · cases hmem
    rcases List.mem_cons.1 hmem with hmem | hmem
    · cases hmem
      exact hw k
    · exact h.noSuper w' k hmem
  refine ⟨committedLast_of_noSuper hno, fun w' hmem _ => ⟨hno, ?_, hs⟩⟩
  rcases List.mem_cons.1 hmem with hmem | hmem
  · cases hmem
    exact ⟨_, rfl⟩
  rcases List.mem_cons.1 hmem with hmem | hmem
  · cases hmem
  · exact absurd hmem (h.noFailure w')

theorem Complete.mono {e : Event} (h : Complete c tr) (hobj : Mkfs.objects (e :: tr) = Mkfs.objects tr)
    (hopen : ∀ l, isOpen l (e :: tr) = isOpen l tr) (he : ∀ w, e ≠ .done w false) :
    Complete c (e :: tr) where
  objects o ho := by
    obtain ⟨w, hw, h⟩ := h.objects o (hobj ▸ ho)
    exact ⟨w, List.mem_cons_of_mem _ hw, h⟩
  closed l := by rw [hopen, h.closed]
  journal := by
    obtain ⟨w, hw, h⟩ := h.journal
    exact ⟨w, List.mem_cons_of_mem _ hw, h⟩
  noFailure w hw := by
    rcases List.mem_cons.1 hw with hw | hw
    · exact he w hw.symm
    · exact h.noFailure w hw

theorem Complete.issue (h : Complete c tr) : Complete c (.issue w :: tr) :=
  h.mono rfl (fun _ => rfl) fun _ h => by cases h

theorem Complete.done (h : Complete c tr) : Complete c (.done w true :: tr) :=
  h.mono rfl (fun _ => rfl) fun _ h => by cases h

/-- A write is issued when all is complete. -/
theorem CommittedLast.issue (h : CommittedLast c tr) (hc : Complete c tr) :
    CommittedLast c (.issue w :: tr) := by
  intro later w' k earlier heq hw
  rcases later with _ | ⟨e, later⟩
  · obtain ⟨-, rfl⟩ := List.cons.inj heq
    exact ⟨hc, rfl⟩
  · obtain ⟨-, heq⟩ := List.cons.inj heq
    exact h later w' k earlier heq hw

theorem CommittedLast.done {ok : Bool} (h : CommittedLast c tr) :
    CommittedLast c (.done w ok :: tr) := by
  intro later w' k earlier heq hw
  rcases later with _ | ⟨e, later⟩
  · obtain ⟨heq, -⟩ := List.cons.inj heq
    cases heq
  · obtain ⟨-, heq⟩ := List.cons.inj heq
    exact h later w' k earlier heq hw

end Histories

/-! ## Runs -/

section Runs

variable {c : Cfg} {s s' : Sb}

theorem OnlyTries.good (h : OnlyTries s s') (hg : Good s.trace) : Good s'.trace := by
  obtain ⟨new, htrace, hnew⟩ := h
  rw [htrace]
  intro e he
  rcases List.mem_append.1 he with he | he
  · have := hnew e he
    cases e with
    | erase | scan | got => trivial
    | opened | append | issue | done | closed | prepared => exact this.elim
  · exact hg e he

theorem Blank.good (h : Blank c s) : Good s.trace := by
  intro e he
  rcases h.trace e he with he | rfl
  · cases e with
    | erase | scan | got => trivial
    | opened | append | issue | done | closed | prepared => exact he.elim
  · trivial

theorem areaWrite_target (l : Nat) (a : Area) (buf : Buf) (k : Nat) :
    (areaWrite c l a buf).target ≠ .super k := by
  unfold areaWrite
  simp

theorem Step.good (h : Step c s s') (hg : Good s.trace) : Good s'.trace := by
  cases h with
  | create => exact hg
  | modify => exact hg
  | bad h => exact (OnlyTries.of_badTurns (.single h)).good hg
  | reserve _ h => exact h.onlyTries.good hg
  | @fresh l segno _ _ _ h => exact (h.onlyTries.good hg).cons (e := .opened l segno) trivial
  | @append o => exact hg.cons (e := .append o) trivial
  | @close l buf _ _ _ h =>
    refine Good.cons ?_ trivial
    rw [h.same]
    exact hg.wrote (areaWrite_target l _ buf)

theorem Calm.good (h : Calm c s s') (hg : Good s.trace) : Good s'.trace := by
  induction h with
  | refl => exact hg
  | tail _ hstep ih =>
    rcases hstep with hstep | hstep
    · exact hstep.good ih
    · cases hstep with
      | @mk l segno _ _ _ h => exact (h.onlyTries.good ih).cons (e := .opened l segno) trivial

theorem Halted.good (h : Halted c s s') (hg : Good s.trace) : Good s'.trace := by
  obtain ⟨s1, hcalm, hh⟩ := h
  have hg := hcalm.good hg
  cases hh with
  | here => exact hg
  | turn h => exact h.onlyTries.good hg
  | taken _ h => exact h.onlyTries.good hg
  | @cut l n buf _ _ _ h =>
    rw [h.same]
    exact hg.issue (areaWrite_target l _ buf)
  | @wrote l buf _ _ h =>
    rw [h.same]
    exact hg.wrote (areaWrite_target l _ buf)

theorem Failed.orderly {stopped : Prop} (h : Failed c s s') (hg : Good s.trace) (hs : stopped) :
    Orderly c stopped s'.trace := by
  obtain ⟨s1, hcalm, hf⟩ := h
  cases hf with
  | mk _ _ h =>
    rw [h.same]
    exact (hcalm.good hg).orderly_failed (areaWrite_target _ _ _) hs

theorem Ended.orderly {e : Stop} (h : Ended c e s s') (hg : Good s.trace) :
    Orderly c (∃ msg, e = .fail msg) s'.trace := by
  rcases h with h | ⟨he, h⟩
  · exact (h.good hg).orderly
  · exact h.orderly hg he

/-- `if (ret) fail(msg)`. -/
theorem wp_orFail {msg : String} {m : MkfsM Int} {Q : Unit → Sb → Prop} {E : Stop → Sb → Prop}
    (h : Wp m (fun ret s' => (ret = 0 → Q () s') ∧ (ret ≠ 0 → E (.fail msg) s')) E s) :
    Wp (orFail msg m) Q E s := by
  unfold orFail
  refine h.bind ?_
  rintro ret s1 ⟨h0, h1⟩
  rw [wp_ite]
  exact ⟨fun hne => h1 hne, fun heq => h0 (not_not.1 heq)⟩

/-- What holds from the first superblock write on. -/
structure Supers (c : Cfg) (tr : List Event) : Prop where
  last : CommittedLast c tr
  fails : ∀ w, .done w false ∈ tr → ∃ k, w.target = .super k

theorem Supers.orderly {stopped : Prop} {tr : List Event} (h : Supers c tr) :
    Orderly c stopped tr := by
  refine ⟨h.last, fun w hw hno => ?_⟩
  obtain ⟨k, hk⟩ := h.fails w hw
  exact absurd hk (hno k)

theorem Supers.issue {w : DevWrite} {tr : List Event} (h : Supers c tr) (hc : Complete c tr) :
    Supers c (.issue w :: tr) := by
  refine ⟨h.last.issue hc, fun w' hw => h.fails w' ?_⟩
  rcases List.mem_cons.1 hw with hw | hw
  · cases hw
  · exact hw

theorem Supers.done {w : DevWrite} {ok : Bool} {k : Nat} {tr : List Event} (h : Supers c tr)
    (hw : w.target = .super k) : Supers c (.done w ok :: tr) := by
  refine ⟨h.last.done, fun w' hmem => ?_⟩
  rcases List.mem_cons.1 hmem with hmem | hmem
  · cases hmem
    exact ⟨k, hw⟩
  · exact h.fails w' hmem

/-- The write of one superblock, when all is complete. -/
theorem devSuper_spec {k ofs size : Nat} {buf : Buf} (hc : Complete c s.trace)
    (hs : Supers c s.trace) :
    Wp (devWrite (.super k) ofs size buf)
      (fun ret s' => Supers c s'.trace ∧ (ret = 0 → Complete c s'.trace))
      (fun _ s' => Supers c s'.trace) s := by
  refine (devWrite_spec (.super k) ofs size buf s).mono ?_ ?_
  · rintro ret s1 (⟨rfl, hd⟩ | ⟨rfl, n, -, hd⟩)
    · rw [hd.same]
      exact ⟨(hs.issue hc).done rfl, fun _ => hc.issue.done⟩
    · rw [hd.same]
      exact ⟨(hs.issue hc).done rfl, fun h => absurd h (by decide)⟩
  · rintro e s1 ⟨n, -, hd⟩
    rw [hd.same]
    exact hs.issue hc

/-- The two superblocks are written when all is complete. -/
theorem makeSuper_spec (hc : Complete c s.trace) (hs : Supers c s.trace) :
    Wp (makeSuper c) (fun _ s' => Supers c s'.trace) (fun _ s' => Supers c s'.trace) s := by
  unfold makeSuper
  rw [wp_bind, wp_get]
  refine (devSuper_spec hc hs).bind ?_
  rintro ret s1 ⟨hs1, hc1⟩
  rw [wp_ite]
  refine ⟨fun h0 => (devSuper_spec (hc1 h0) hs1).imp fun _ _ h => h.1, fun _ => hs1⟩

/-- All objects are on the device when `flush_segments` has returned. -/
theorem StoreRan.onDevice {s1 s2 : Sb} (hb : Blank c s1) (h : StoreRan c s1 s2)
    (hclosed : ∀ l, isOpen l s2.trace = false) {o : Obj} (ho : o ∈ Mkfs.objects s2.trace) :
    ∃ w, .done w true ∈ s2.trace ∧ w.target = .area o.area o.segno ∧ w.size = c.segsize ∧
      At w.buf o.used (o.bytes c) := by
  have hf := h.calm.fillings hb.fillings
  obtain ⟨p, hp, hop⟩ := hf.mem_written hclosed ho
  obtain ⟨segno, hw, hso⟩ := hf.writes _ p hp
  refine ⟨p.1, done_of_written hp, ?_, ?_, ?_⟩
  · rw [hw, (hso.place o hop).2.1]
  · rw [hw]
  · rw [hw]
    exact hso.at hop

/-- The journal, when all objects are on the device. -/
theorem makeJournal_orderly (hg : Good s.trace) (hclosed : ∀ l, isOpen l s.trace = false)
    (hobjs : ∀ o ∈ objects s.trace, ∃ w, .done w true ∈ s.trace ∧
      w.target = .area o.area o.segno ∧ w.size = c.segsize ∧ At w.buf o.used (o.bytes c)) :
    Wp (makeJournal c)
      (fun ret s' => (ret = 0 → Complete c s'.trace ∧ Supers c s'.trace) ∧
        (ret ≠ 0 → ∀ {stopped : Prop}, stopped → Orderly c stopped s'.trace))
      (fun e s' => Orderly c (∃ msg, e = .fail msg) s'.trace) s := by
  have hno : ∀ j k, (journalWrite c s j).target ≠ .super k := fun j k => by
    unfold journalWrite
    simp
  refine (makeJournal_spec (D := fun _ _ => True) fun _ _ _ => trivial).mono ?_ ?_
  · rintro ret s1 ⟨j, je, -, ⟨rfl, hd⟩ | ⟨rfl, n, -, hd⟩⟩
    · rw [hd.same]
      refine ⟨fun _ => ?_, fun h => absurd rfl h⟩
      have hg1 : Good (.done (journalWrite c s j) true :: .issue (journalWrite c s j) :: s.trace) :=
        hg.wrote (hno j)
      refine ⟨⟨fun o ho => ?_, hclosed, ⟨journalWrite c s j, List.mem_cons_self, rfl, rfl⟩,
        hg1.noFailure⟩, committedLast_of_noSuper hg1.noSuper, fun w hw => absurd hw (hg1.noFailure w)⟩
      obtain ⟨w, hw, h⟩ := hobjs o ho
      exact ⟨w, List.mem_cons_of_mem _ (List.mem_cons_of_mem _ hw), h⟩
    · rw [hd.same]
      exact ⟨fun h => absurd h (by decide), fun _ _ hs => hg.orderly_failed (hno j) hs⟩
  · rintro e s1 ⟨je, rfl | ⟨j, n, -, -, hd⟩⟩
    · exact hg.orderly
    · rw [hd.same]
      exact (hg.issue (hno j)).orderly

theorem mkfs_orderly (c : Cfg) (os : List Outcome) :
    Wp (mkfs c) (fun _ s' => Orderly c False s'.trace)
      (fun e s' => Orderly c (∃ msg, e = .fail msg) s'.trace) (Sb.zero os) := by
  have hg0 : Good (Sb.zero os).trace := fun e he => by cases he
  unfold mkfs
  refine (mkfsPrepare_spec rfl).seq ?_ fun _ _ h => (h.good hg0).orderly
  rintro - s1 ⟨k1, k2, hp⟩
  have hb := hp.blank
  have hg1 := hb.good
  refine (mkfsStore_spec hp.ready).seq ?_ fun _ _ h => h.orderly hg1
  intro _ s2 hr
  have hclosed : ∀ l, isOpen l s2.trace = false := fun l => by
    rcases Nat.lt_or_ge l noAreas with hl | hl
    · exact hr.closed l hl
    · rw [hr.calm.isOpen_ge hl, hb.quiet.isOpen]
  have hg2 := hr.calm.good hg1
  refine Wp.bind (Q := fun _ s3 => Complete c s3.trace ∧ Supers c s3.trace) ?_ ?_
  · refine wp_orFail ((makeJournal_orderly hg2 hclosed fun o ho => hr.onDevice hb hclosed ho).imp ?_)
    exact fun ret s3 h => ⟨h.1, fun hne => h.2 hne ⟨_, rfl⟩⟩
  · rintro - s3 ⟨hc3, hs3⟩
    exact wp_orFail ((makeSuper_spec hc3 hs3).mono (fun _ _ h => ⟨fun _ => h.orderly, fun _ =>
      h.orderly⟩) fun _ _ h => h.orderly)

/-- The superblocks are written last, and any write before them that fails ends the run: with the
message of `fail`, and without a superblock. -/
theorem superblocks_last (c : Cfg) (os : List Outcome) :
    Orderly c (∃ msg, mkfs c (Sb.zero os) = .error (.fail msg) (after (mkfs c) (Sb.zero os)))
      (after (mkfs c) (Sb.zero os)).trace := by
  have h := mkfs_orderly c os
  unfold Wp at h
  unfold after
  cases hm : mkfs c (Sb.zero os) with
  | ok a s' =>
    rw [hm] at h
    exact ⟨h.last, fun w hw hno => (h.fails w hw hno).2.2.elim⟩
  | error e s' =>
    rw [hm] at h
    refine ⟨h.last, fun w hw hno => ?_⟩
    obtain ⟨h1, h2, msg, rfl⟩ := h.fails w hw hno
    exact ⟨h1, h2, msg, rfl⟩

end Runs

end Logfs.Mkfs
