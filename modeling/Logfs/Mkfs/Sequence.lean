import Logfs.Mkfs.Reserve
import Logfs.Mkfs.Scan

/-!
# The segments `get_segment` returns

A turn of `get_segment` moves the counter on by one and erases the segment it was at, so the
erases of a run are those of the first segments, one after the other, and the segments
returned are the ones among them that could be erased.
-/

namespace Logfs.Mkfs

open Relation (ReflTransGen)

/-! ## One call -/

section Call

variable {c : Cfg} {s : Sb}

/-- `safe_pwrite` of at least one byte uses an answer, or there was none left. -/
theorem safePwriteLoop_uses (buf : Buf) (size ofs : Nat) : ∀ (os : List Outcome) (done : Nat)
    (bl : List Blit),
    (safePwriteLoop buf size ofs os done bl).2.1.length ≤ os.length ∧
      (done < size → (safePwriteLoop buf size ofs os done bl).1.isSome →
        (safePwriteLoop buf size ofs os done bl).2.1.length < os.length) ∧
      ((safePwriteLoop buf size ofs os done bl).1 = none →
        (safePwriteLoop buf size ofs os done bl).2.1 = []) := by
  intro os
  induction os with
  | nil =>
    intro done bl
    unfold safePwriteLoop
    refine ⟨Nat.le_refl _, fun hlt h => ?_, fun _ => rfl⟩
    rw [if_neg (by omega)] at h
    cases h
  | cons o os ih =>
    intro done bl
    unfold safePwriteLoop
    split_ifs with hfull
    · exact ⟨Nat.le_refl _, fun hlt => by omega, fun h => by cases h⟩
    · cases o with
      | eintr =>
        obtain ⟨hle, -, hnone⟩ := ih done bl
        exact ⟨Nat.le_succ_of_le hle, fun _ _ => Nat.lt_succ_of_le hle, hnone⟩
      | error =>
        exact ⟨Nat.le_succ _, fun _ _ => Nat.lt_succ_self _, fun h => by cases h⟩
      | ok n =>
        obtain ⟨hle, -, hnone⟩ := ih (done + min n (size - done))
          (⟨ofs + done, min n (size - done), fun i => buf (done + i)⟩ :: bl)
        exact ⟨Nat.le_succ_of_le hle, fun _ _ => Nat.lt_succ_of_le hle, hnone⟩

/-- A write of at least one byte uses an answer of the device, or cuts the run off when there is
none left. -/
theorem safePwrite_uses {size ofs : Nat} (buf : Buf) (hsize : 0 < size) (hofs : ofs < 2 ^ 63) :
    Wp (safePwrite ofs size buf)
      (fun _ s' => s'.lastseg = s.lastseg ∧ s'.outcomes.length < s.outcomes.length)
      (fun e s' => e = .killed ∧ s'.outcomes = []) s := by
  obtain ⟨-, huses, hnone⟩ := safePwriteLoop_uses buf size ofs s.outcomes 0 s.blits
  unfold Wp safePwrite
  rw [if_neg (by omega)]
  rcases hl : safePwriteLoop buf size ofs s.outcomes 0 s.blits with ⟨_ | ret, os, bl⟩
  · rw [hl] at hnone
    exact ⟨rfl, hnone rfl⟩
  · rw [hl] at huses
    exact ⟨rfl, huses hsize rfl⟩

theorem mtdErase_uses (ofs size : Nat) :
    Wp (mtdErase ofs size)
      (fun _ s' => s'.lastseg = s.lastseg ∧ s'.outcomes.length < s.outcomes.length)
      (fun e s' => e = .killed ∧ s'.outcomes = []) s := by
  unfold Wp mtdErase
  rcases hos : s.outcomes with _ | ⟨_ | _ | _, os⟩
  · exact ⟨rfl, hos⟩
  · exact ⟨rfl, Nat.lt_succ_self _⟩
  · exact ⟨rfl, Nat.lt_succ_self _⟩
  · exact ⟨rfl, Nat.lt_succ_self _⟩

theorem devErase_uses {segno : Nat} (hlt : segno < 2 ^ 32) :
    Wp (devErase c (segno * c.segsize) c.segsize)
      (fun _ s' => s'.lastseg = s.lastseg ∧ s'.outcomes.length < s.outcomes.length)
      (fun e s' => e = .killed ∧ s'.outcomes = []) s := by
  have hofs : segno * c.segsize < 2 ^ 63 :=
    calc segno * c.segsize ≤ 2 ^ 32 * 2 ^ 30 := Nat.mul_le_mul hlt.le c.segsize_le
      _ < 2 ^ 63 := by decide
  unfold devErase
  cases c.kind with
  | bdev =>
    unfold bdevErase bdevWrite
    refine (safePwrite_uses eraseBuf c.segsize_pos hofs).bind fun ret s1 h1 => ?_
    exact wp_ite.2 ⟨fun _ => h1, fun _ => h1⟩
  | mtd => exact mtdErase_uses _ _

/-- More turns than the counter has segments left, or than there are answers, are never made. -/
theorem getSegmentLoop_eq (hc : c.noSegs < 2 ^ 32 - 1) : ∀ (t t' : Nat) (s : Sb),
    s.lastseg ≤ c.noSegs →
    (s.outcomes.length < t ∨ c.noSegs - s.lastseg < t) →
    (s.outcomes.length < t' ∨ c.noSegs - s.lastseg < t') →
    getSegmentLoop c t s = getSegmentLoop c t' s := by
  intro t
  induction t with
  | zero => exact fun t' s _ h _ => by omega
  | succ t ih =>
    intro t' s hle ht ht'
    obtain ⟨t', rfl⟩ : ∃ n, t' = n + 1 := ⟨t' - 1, by omega⟩
    have hmod : (s.lastseg + 1) % 2 ^ 32 = s.lastseg + 1 := Nat.mod_eq_of_lt (by omega)
    have hlt : s.lastseg < 2 ^ 32 := by omega
    unfold getSegmentLoop
    refine Wp.bind_congr (E := fun _ _ => True) ?_
    rw [wp_get]
    refine Wp.bind_congr (E := fun _ _ => True) ?_
    rw [wp_set, hmod]
    split_ifs with hguard
    · rfl
    · refine Wp.bind_congr ((devErase_uses hlt).imp ?_)
      rintro err s1 ⟨hlast, hlen⟩
      have hlast : s1.lastseg = s.lastseg + 1 := hlast
      have hlen : s1.outcomes.length < s.outcomes.length := hlen
      refine Wp.bind_congr (E := fun _ _ => True) ?_
      rw [wp_note]
      split_ifs with herr
      · refine Wp.bind_congr (E := fun _ _ => True) ?_
        refine wp_setEntry (fun hseg => ?_) trivial
        refine ih t' _ ?_ ?_ ?_
        · dsimp only
          omega
        · dsimp only
          omega
        · dsimp only
          omega
      · rfl

/-- `get_segment` makes at most as many turns as there are segments left, and one more. -/
theorem getSegment_turns (hc : c.noSegs < 2 ^ 32 - 1) (hle : s.lastseg ≤ c.noSegs) {t : Nat}
    (ht : c.noSegs - s.lastseg + 1 ≤ t) : getSegmentLoop c t s = getSegment c s :=
  getSegmentLoop_eq hc t _ s hle (Or.inr (by omega)) (Or.inl (Nat.lt_succ_self _))

/-- A call takes a segment of the table from the counter on, fails with its message, or is cut off
when the device does not answer; it never leaves the table. -/
theorem getSegmentLoop_ends (hc : c.noSegs < 2 ^ 32 - 1) : ∀ (t : Nat) (s : Sb),
    s.lastseg ≤ c.noSegs → s.outcomes.length < t →
    Wp (getSegmentLoop c t)
      (fun segno s' => s.lastseg ≤ segno ∧ segno < c.noSegs ∧ s'.lastseg = segno + 1)
      (fun e s' => e = .fail "no more free segments" ∧ s'.lastseg = c.noSegs + 1 ∨
        e = .killed ∧ s'.outcomes = []) s := by
  intro t
  induction t with
  | zero => exact fun s _ h => absurd h (Nat.not_lt_zero _)
  | succ t ih =>
    intro s hle ht
    have hmod : (s.lastseg + 1) % 2 ^ 32 = s.lastseg + 1 := Nat.mod_eq_of_lt (by omega)
    have hlt : s.lastseg < 2 ^ 32 := by omega
    unfold getSegmentLoop
    rw [wp_bind, wp_get, wp_bind, wp_set, hmod, wp_ite]
    refine ⟨fun hguard => Or.inl ⟨rfl, by dsimp only; omega⟩, fun hguard => ?_⟩
    refine (devErase_uses hlt).seq ?_ fun _ _ h => Or.inr h
    rintro err s1 ⟨hlast, hlen⟩
    have hlast : s1.lastseg = s.lastseg + 1 := hlast
    have hlen : s1.outcomes.length < s.outcomes.length := hlen
    rw [wp_bind, wp_note, wp_ite]
    refine ⟨fun _ => ?_, fun _ => ?_⟩
    · rw [wp_bind]
      refine wp_setEntry_lt (by omega) ?_
      refine (ih _ (by dsimp only; omega) (by dsimp only; omega)).imp ?_
      rintro segno s2 ⟨h1, h2, h3⟩
      dsimp only at h1
      exact ⟨by omega, h2, h3⟩
    · rw [wp_bind, wp_note, wp_pure]
      exact ⟨Nat.le_refl _, by omega, hlast⟩

end Call

/-! ## The erases of a history -/

/-- The segments that turns of `get_segment` have erased or failed to erase, newest first. -/
def erases : List Event → List (Nat × Bool)
  | [] => []
  | .erase segno ok :: tr => (segno, ok) :: erases tr
  | _ :: tr => erases tr

/-- The segments `get_segment` has returned, newest first. -/
def returned : List Event → List Nat
  | [] => []
  | .got segno _ :: tr => segno :: returned tr
  | _ :: tr => returned tr

/-- A segment is returned right after it has been erased. -/
def Paired : List Event → Prop
  | [] => True
  | .got segno _ :: tr => tr.head? = some (.erase segno true) ∧ Paired tr
  | _ :: tr => Paired tr

/-- The first `n` segments have been tried once each, in their order, and those that could be erased
were returned. -/
structure History (n : Nat) (tr : List Event) : Prop where
  erased : (erases tr).map Prod.fst = (List.range n).reverse
  returned_eq : returned tr = ((erases tr).filter Prod.snd).map Prod.fst
  paired : Paired tr

/-- An event that is not one of a turn of `get_segment`. -/
def Event.isOther : Event → Prop
  | .erase _ _ => False
  | .got _ _ => False
  | _ => True

section History

variable {n x : Nat} {tr new : List Event} {ok ok' : Bool} {e : SegEntry}

theorem erases_append (new tr : List Event) : erases (new ++ tr) = erases new ++ erases tr := by
  induction new with
  | nil => rfl
  | cons e new ih =>
    cases e with
    | erase segno ok => exact congrArg ((segno, ok) :: ·) ih
    | scan | got | opened | append | issue | done | closed | prepared => exact ih

theorem erases_others (h : ∀ e ∈ new, e.isOther) : erases (new ++ tr) = erases tr := by
  induction new with
  | nil => rfl
  | cons e new ih =>
    have he := h e List.mem_cons_self
    have ih := ih fun e he => h e (List.mem_cons_of_mem _ he)
    cases e with
    | erase | got => exact he.elim
    | scan | opened | append | issue | done | closed | prepared => exact ih

theorem returned_others (h : ∀ e ∈ new, e.isOther) : returned (new ++ tr) = returned tr := by
  induction new with
  | nil => rfl
  | cons e new ih =>
    have he := h e List.mem_cons_self
    have ih := ih fun e he => h e (List.mem_cons_of_mem _ he)
    cases e with
    | erase | got => exact he.elim
    | scan | opened | append | issue | done | closed | prepared => exact ih

theorem Paired.others (h : ∀ e ∈ new, e.isOther) (hp : Paired tr) : Paired (new ++ tr) := by
  induction new with
  | nil => exact hp
  | cons e new ih =>
    have he := h e List.mem_cons_self
    have ih := ih fun e he => h e (List.mem_cons_of_mem _ he)
    cases e with
    | erase | got => exact he.elim
    | scan | opened | append | issue | done | closed | prepared => exact ih

theorem History.others (h : ∀ e ∈ new, e.isOther) (hh : History n tr) : History n (new ++ tr) where
  erased := by rw [erases_others h, hh.erased]
  returned_eq := by rw [erases_others h, returned_others h, hh.returned_eq]
  paired := hh.paired.others h

theorem History.bad (hh : History n tr) : History (n + 1) (.erase n false :: tr) where
  erased := by
    rw [List.range_succ, List.reverse_append]
    exact congrArg (n :: ·) hh.erased
  returned_eq := hh.returned_eq
  paired := hh.paired

theorem History.taken (hh : History n tr) : History (n + 1) (.got n e :: .erase n true :: tr) where
  erased := by
    rw [List.range_succ, List.reverse_append]
    exact congrArg (n :: ·) hh.erased
  returned_eq := congrArg (n :: ·) hh.returned_eq
  paired := ⟨rfl, hh.paired⟩

theorem mem_erases : (x, ok) ∈ erases tr ↔ .erase x ok ∈ tr := by
  induction tr with
  | nil => simp [erases]
  | cons e tr ih =>
    cases e with
    | erase y b =>
      simp only [erases, List.mem_cons, ih, Prod.mk.injEq, Event.erase.injEq]
    | scan | got | opened | append | issue | done | closed | prepared =>
      simp only [erases, ih, List.mem_cons, reduceCtorEq, false_or]

theorem History.lt (hh : History n tr) (hx : (x, ok) ∈ erases tr) : x < n := by
  have hmem : x ∈ (erases tr).map Prod.fst := List.mem_map_of_mem hx
  rw [hh.erased, List.mem_reverse, List.mem_range] at hmem
  exact hmem

theorem History.nodup (hh : History n tr) : ((erases tr).map Prod.fst).Nodup := by
  rw [hh.erased, List.nodup_reverse]
  exact List.nodup_range

/-- A segment is tried once. -/
theorem History.unique (hh : History n tr) (h : (x, ok) ∈ erases tr) (h' : (x, ok') ∈ erases tr) :
    ok = ok' :=
  congrArg Prod.snd (List.inj_on_of_nodup_map hh.nodup h h' rfl)

theorem History.mem_returned (hh : History n tr) : x ∈ returned tr ↔ (x, true) ∈ erases tr := by
  rw [hh.returned_eq, List.mem_map]
  constructor
  · rintro ⟨⟨y, b⟩, hy, rfl⟩
    obtain ⟨hmem, hb⟩ := List.mem_filter.mp hy
    rwa [show b = true from hb] at hmem
  · exact fun h => ⟨(x, true), List.mem_filter.mpr ⟨h, rfl⟩, rfl⟩

/-- Every segment below the last one returned was returned, or could not be erased. -/
theorem History.tried (hh : History n tr) (hx : x < n) (hno : x ∉ returned tr) :
    (x, false) ∈ erases tr := by
  have hmem : x ∈ (erases tr).map Prod.fst := by
    rw [hh.erased, List.mem_reverse, List.mem_range]
    exact hx
  obtain ⟨⟨y, b⟩, hy, rfl⟩ := List.mem_map.mp hmem
  cases b with
  | false => exact hy
  | true => exact absurd (hh.mem_returned.mpr hy) hno

/-- The segments returned are strictly increasing. -/
theorem History.increasing (hh : History n tr) : (returned tr).Pairwise (· > ·) := by
  have hall : ((erases tr).map Prod.fst).Pairwise (· > ·) := by
    rw [hh.erased, List.pairwise_reverse]
    exact List.pairwise_lt_range
  rw [hh.returned_eq]
  exact hall.sublist ((List.filter_sublist).map _)

end History

/-! ## Runs -/

/-- The history of a run that goes on: the counter has passed the segments that were tried. -/
structure Running (c : Cfg) (s : Sb) : Prop where
  counter : s.lastseg ≤ c.noSegs
  history : History s.lastseg s.trace
  opened : ∀ l, isOpen l s.trace = true → ((s.area l).segno, true) ∈ erases s.trace
  bad : ∀ x, (x, false) ∈ erases s.trace → (∃ g ∈ returned s.trace, g < x) →
    s.segmentEntry x = badEntry

/-- The history of a run that has ended. -/
structure Handed (c : Cfg) (s : Sb) : Prop where
  history : ∃ n, History n s.trace
  lt : ∀ g ∈ returned s.trace, g < c.noSegs
  bad : ∀ x, (x, false) ∈ erases s.trace → (∃ g ∈ returned s.trace, g < x) →
    (∃ g ∈ returned s.trace, x < g) → s.segmentEntry x = badEntry

/-- The run has gone on without `get_segment`, and left the entries of bad segments alone. -/
structure Besides (s s' : Sb) : Prop where
  trace : Adds Event.isOther s s'
  entry : ∀ x, (x, false) ∈ erases s.trace → s'.segmentEntry x = s.segmentEntry x
  lastseg : s'.lastseg = s.lastseg

section Running

variable {c : Cfg} {s s1 s' : Sb} {segno : Nat}

theorem Adds.erases (h : Adds Event.isOther s s') :
    erases s'.trace = erases s.trace ∧ returned s'.trace = returned s.trace := by
  obtain ⟨new, h, hn⟩ := h
  rw [h]
  exact ⟨erases_others hn, returned_others hn⟩

theorem Running.handed (h : Running c s) : Handed c s where
  history := ⟨_, h.history⟩
  lt _ hg := lt_of_lt_of_le (h.history.lt (h.history.mem_returned.mp hg)) h.counter
  bad x hx hlo _ := h.bad x hx hlo

theorem Besides.history (hb : Besides s s') (h : History s.lastseg s.trace) :
    History s'.lastseg s'.trace := by
  obtain ⟨new, ht, hn⟩ := hb.trace
  rw [hb.lastseg, ht]
  exact h.others hn

theorem Running.besides (h : Running c s) (hb : Besides s s')
    (hopen : ∀ l, isOpen l s'.trace = true → ((s'.area l).segno, true) ∈ Mkfs.erases s.trace) :
    Running c s' := by
  obtain ⟨he, hr⟩ := hb.trace.erases
  refine ⟨hb.lastseg ▸ h.counter, hb.history h.history, fun l hl => he ▸ hopen l hl,
    fun x hx hlo => ?_⟩
  · rw [he] at hx
    rw [hr] at hlo
    rw [hb.entry x hx, h.bad x hx hlo]

theorem Handed.besides (h : Handed c s) (hb : Besides s s') : Handed c s' := by
  obtain ⟨he, hr⟩ := hb.trace.erases
  refine ⟨?_, fun g hg => h.lt g (hr ▸ hg), fun x hx hlo hhi => ?_⟩
  · obtain ⟨n, hn⟩ := h.history
    obtain ⟨new, ht, hnew⟩ := hb.trace
    exact ⟨n, ht ▸ hn.others hnew⟩
  · rw [he] at hx
    rw [hr] at hlo hhi
    rw [hb.entry x hx, h.bad x hx hlo hhi]

theorem Running.badTurn (h : Running c s) (hb : BadTurn c s s') : Running c s' := by
  have hsame := hb.sameStore
  have htr : s'.trace = .erase s.lastseg false :: s.trace := by rw [hb.same]
  have hlast : s'.lastseg = s.lastseg + 1 := by rw [hb.same]
  have hentry : s'.segmentEntry = Function.update s.segmentEntry s.lastseg badEntry := by
    rw [hb.same]
    rfl
  refine ⟨hlast ▸ hb.lt, ?_, fun l hl => ?_, fun x hx hlo => ?_⟩
  · rw [hlast, htr]
    exact h.history.bad
  · rw [hsame.isOpen] at hl
    rw [hsame.area, htr]
    exact List.mem_cons_of_mem _ (h.opened l hl)
  · rw [htr] at hx hlo
    rw [hentry]
    rcases List.mem_cons.mp hx with heq | hx
    · rw [(Prod.mk.inj heq).1, Function.update_self]
    · have hlt := h.history.lt hx
      rw [Function.update_of_ne (by omega), h.bad x hx hlo]

theorem Running.badTurns (h : Running c s) (hb : ReflTransGen (BadTurn c) s s') :
    Running c s' := by
  induction hb with
  | refl => exact h
  | tail _ hturn ih => exact ih.badTurn hturn

/-- On a device with less than `2 ^ 32 - 1` segments the counter does not wrap. -/
theorem Taken.lt (hc : c.noSegs < 2 ^ 32 - 1) (h : Running c s) (ht : Taken c segno s s') :
    segno < c.noSegs := by
  have hsegno := ht.segno_eq
  have hguard := ht.guard
  have hcount := h.counter
  rw [Nat.mod_eq_of_lt (by omega)] at hguard
  omega

/-- `get_segment` takes a segment of the table. -/
theorem Running.taken (h : Running c s) (ht : Taken c segno s s') (hlt : segno < c.noSegs) :
    Running c s' ∧ (segno, true) ∈ Mkfs.erases s'.trace := by
  have hsame := ht.sameStore
  have hsegno := ht.segno_eq
  have hlast := ht.lastseg hlt
  have htr : s'.trace =
      .got segno (s.segmentEntry segno) :: .erase segno true :: s.trace := by rw [ht.same]
  have hentry : s'.segmentEntry = s.segmentEntry := by rw [ht.same]
  refine ⟨⟨by omega, ?_, fun l hl => ?_, fun x hx hlo => ?_⟩, ?_⟩
  · rw [hlast, htr, hsegno]
    exact h.history.taken
  · rw [hsame.isOpen] at hl
    rw [hsame.area, htr]
    exact List.mem_cons_of_mem _ (h.opened l hl)
  · rw [htr] at hx hlo
    have hx : (x, false) ∈ Mkfs.erases s.trace := by
      rcases List.mem_cons.mp hx with heq | hx
      · cases heq
      · exact hx
    have hlt := h.history.lt hx
    obtain ⟨g, hg, hgx⟩ := hlo
    rcases List.mem_cons.mp hg with rfl | hg
    · omega
    · rw [hentry, h.bad x hx ⟨g, hg, hgx⟩]
  · rw [htr]
    exact List.mem_cons_self

/-- An entry of a segment that was erased is not one of a bad segment. -/
theorem Running.entry_update (h : Running c s) (hseg : (segno, true) ∈ Mkfs.erases s.trace)
    (e : SegEntry) (x : Nat) (hx : (x, false) ∈ Mkfs.erases s.trace) :
    Function.update s.segmentEntry segno e x = s.segmentEntry x := by
  refine Function.update_of_ne ?_ _ _
  rintro rfl
  have heq := h.history.unique hseg hx
  cases heq

theorem Step.running (hstep : Step c s s') (h : Running c s) : Running c s' := by
  cases hstep with
  | create => exact ⟨h.counter, h.history, h.opened, h.bad⟩
  | modify => exact ⟨h.counter, h.history, h.opened, h.bad⟩
  | bad hb => exact h.badTurn hb
  | @reserve segno s1 journal ht hseg =>
    obtain ⟨h1, hmem⟩ := h.taken ht hseg
    exact h1.besides ⟨⟨[], rfl, by simp⟩, h1.entry_update hmem _, rfl⟩ h1.opened
  | @fresh l segno s1 _ _ ht hseg =>
    obtain ⟨h1, hmem⟩ := h.taken ht hseg
    refine h1.besides ⟨⟨[_], rfl, by simp [Event.isOther]⟩, fun _ _ => rfl, rfl⟩ fun l' hl' => ?_
    dsimp only at hl' ⊢
    rw [Function.update_apply]
    split_ifs with heq
    · exact hmem
    · rw [isOpen, if_neg (Ne.symm heq)] at hl'
      exact h1.opened l' hl'
  | @append o hp =>
    refine h.besides ⟨⟨[_], rfl, by simp [Event.isOther]⟩, fun _ _ => rfl, rfl⟩ fun l hl => ?_
    have hopen := h.opened l hl
    unfold appendTo
    dsimp only
    rw [Function.update_apply]
    split_ifs with heq
    · subst heq
      exact hopen
    · exact hopen
  | @close l buf s1 hw _ hd =>
    have hs1 := hd.same
    have hadds : Adds Event.isOther s s1 := by
      rw [hs1]
      exact ⟨_, rfl, by simp [Event.isOther]⟩
    have hmem := h.opened l hw.opened
    refine h.besides ⟨hadds.trans ⟨[_], rfl, by simp [Event.isOther]⟩, ?_, by rw [hs1]⟩
      fun l' hl' => ?_
    · intro x hx
      dsimp only
      rw [show s1.segmentEntry = s.segmentEntry by rw [hs1]]
      exact h.entry_update hmem _ x hx
    · rw [hs1] at hl' ⊢
      have hl' : (if l = l' then false else isOpen l' s.trace) = true := hl'
      split_ifs at hl'
      exact h.opened l' hl'

/-- No area takes a segment behind the table. -/
theorem Overrun.absurd_of_running (hc : c.noSegs < 2 ^ 32 - 1) (ho : Overrun c s s')
    (h : Running c s) : False := by
  cases ho with
  | mk _ _ ht hseg =>
    have hlt := ht.lt hc h
    omega

theorem Running.steps (h : Running c s) (hs : ReflTransGen (Step c) s s') : Running c s' := by
  induction hs with
  | refl => exact h
  | tail _ hstep ih => exact hstep.running ih

theorem Calm.running (hc : c.noSegs < 2 ^ 32 - 1) (hcalm : Calm c s s') (h : Running c s) :
    Running c s' := by
  induction hcalm with
  | refl => exact h
  | tail _ hstep ih =>
    rcases hstep with hstep | ho
    · exact hstep.running ih
    · exact (ho.absurd_of_running hc ih).elim

theorem Did.besides {evs : List Event} {ofs n : Nat} {buf : Buf} (h : Did evs ofs n buf s s')
    (he : ∀ e ∈ evs, e.isOther) : Besides s s' := by
  rw [h.same]
  exact ⟨⟨evs, rfl, he⟩, fun _ _ => rfl, rfl⟩

/-- The last turn of a call may have failed to erase a segment. -/
theorem CutTurn.handed (hcut : CutTurn c s s') (h : Running c s) : Handed c s' := by
  have hentry : s'.segmentEntry = s.segmentEntry := by rw [hcut.same]
  rcases hcut.trace with ht | ht
  · refine ⟨⟨_, ht ▸ h.history⟩, ht ▸ h.handed.lt, ?_⟩
    rw [ht, hentry]
    exact h.handed.bad
  · have hr : returned s'.trace = returned s.trace := by
      rw [ht]
      rfl
    refine ⟨⟨_, by rw [ht]; exact h.history.bad⟩, fun g hg => h.handed.lt g (hr ▸ hg), ?_⟩
    intro x hx hlo hhi
    rw [hr] at hlo hhi
    rw [ht] at hx
    rw [hentry]
    rcases List.mem_cons.mp hx with heq | hx
    · -- no segment behind this one was returned
      obtain ⟨g, hg, hgx⟩ := hhi
      have hlt := h.history.lt (h.history.mem_returned.mp hg)
      rw [(Prod.mk.inj heq).1] at hgx
      omega
    · exact h.bad x hx hlo

theorem Halt.handed (hc : c.noSegs < 2 ^ 32 - 1) (hh : Halt c s s') (h : Running c s) :
    Handed c s' := by
  cases hh with
  | here => exact h.handed
  | turn hcut => exact hcut.handed h
  | taken _ ht =>
    have h1 := (h.taken ht (ht.lt hc h)).1
    exact ⟨⟨_, h1.history⟩, h1.handed.lt, h1.handed.bad⟩
  | cut _ _ hd => exact h.handed.besides (hd.besides (by simp [Event.isOther]))
  | wrote _ hd => exact h.handed.besides (hd.besides (by simp [Event.isOther]))

theorem FailedWrite.handed (hf : FailedWrite c s s') (h : Running c s) : Handed c s' := by
  cases hf with
  | mk _ _ hd => exact h.handed.besides (hd.besides (by simp [Event.isOther]))

end Running

/-! ## Placing the superblocks -/

section Prepare

variable {c : Cfg} {s s1 s' : Sb} {k : Nat}

theorem running_zero (c : Cfg) (os : List Outcome) : Running c (Sb.zero os) where
  counter := Nat.zero_le _
  history := ⟨rfl, rfl, trivial⟩
  opened l hl := by cases hl
  bad x hx := by cases hx

/-- Bad turns return nothing. -/
theorem returned_badTurns (h : ReflTransGen (BadTurn c) s s') :
    returned s'.trace = returned s.trace := by
  induction h with
  | refl => rfl
  | tail _ hb ih =>
    rw [hb.same]
    exact ih

/-- The first superblock has been placed in the only segment returned. -/
structure FirstPlaced (c : Cfg) (s : Sb) : Prop where
  running : Running c s
  only : ∀ g ∈ returned s.trace, s.lastseg = g + 1
  closed : ∀ l, isOpen l s.trace = false

/-- The scan does nothing but scan, and set entries. -/
structure Scans (s s' : Sb) : Prop where
  trace : Adds Event.isOther s s'
  lastseg : s'.lastseg = s.lastseg
  isOpen : ∀ l, isOpen l s'.trace = isOpen l s.trace

theorem Scans.refl (s : Sb) : Scans s s := ⟨.refl s, rfl, fun _ => rfl⟩

theorem Scans.trans (h : Scans s s1) (h1 : Scans s1 s') : Scans s s' :=
  ⟨h.trace.trans h1.trace, h1.lastseg.trans h.lastseg, fun l => (h1.isOpen l).trans (h.isOpen l)⟩

/-- Behind the only segment returned none has been tried, whatever the entries are. -/
theorem FirstPlaced.scans (h : FirstPlaced c s) (hs : Scans s s') : FirstPlaced c s' := by
  obtain ⟨he, hr⟩ := hs.trace.erases
  have hbehind : ∀ x, (x, false) ∈ erases s.trace → ¬ ∃ g ∈ returned s.trace, g < x := by
    rintro x hx ⟨g, hg, hgx⟩
    have hlt := h.running.history.lt hx
    have hlast := h.only g hg
    omega
  have hclosed : ∀ l, isOpen l s'.trace = false := fun l => by rw [hs.isOpen, h.closed]
  refine ⟨⟨hs.lastseg ▸ h.running.counter, ?_, fun l hl => ?_, fun x hx hlo => ?_⟩, ?_, hclosed⟩
  · obtain ⟨new, ht, hn⟩ := hs.trace
    rw [hs.lastseg, ht]
    exact h.running.history.others hn
  · rw [hclosed] at hl
    cases hl
  · exact absurd (hr ▸ hlo) (hbehind x (he ▸ hx))
  · rw [hr, hs.lastseg]
    exact h.only

/-- A call of `get_segment` that has not returned. -/
theorem Running.stopped (h : Running c s) (hbad : ReflTransGen (BadTurn c) s s1)
    (hs : s' = s1 ∨ CutTurn c s1 s') : Handed c s' := by
  have h1 := h.badTurns hbad
  rcases hs with rfl | hcut
  · exact h1.handed
  · exact hcut.handed h1

theorem First.placed {os : List Outcome} (h : First c k (Sb.zero os) s') : FirstPlaced c s' := by
  obtain ⟨s1, s2, hbad, ht, rfl⟩ := h.chain
  obtain ⟨h2, hmem⟩ := ((running_zero c os).badTurns hbad).taken ht h.lt
  have hlast := ht.lastseg h.lt
  have hopen : ∀ l, isOpen l s2.trace = false := fun l => by
    rw [ht.sameStore.isOpen, (SameStore.of_badTurns hbad).isOpen]
    rfl
  refine ⟨⟨h2.counter, h2.history, h2.opened, fun x hx hlo => ?_⟩, fun g hg => ?_, hopen⟩
  · exact (h2.entry_update hmem _ x hx).trans (h2.bad x hx hlo)
  · rw [show returned s2.trace = k :: returned s1.trace by rw [ht.same]; rfl,
      returned_badTurns hbad] at hg
    rw [List.mem_singleton.mp hg, ht.segno_eq]
    exact hlast

theorem Second.scans (h : Second c k s s') : Scans s s' := by
  cases h with
  | bdev _ _ _ h =>
    rw [h]
    exact ⟨⟨[], rfl, by simp⟩, rfl, fun _ => rfl⟩
  | mtd _ h =>
    obtain ⟨fails, hf, hs'⟩ := h.same
    rw [hs']
    refine ⟨⟨.scan k true :: fails, rfl, fun e he => ?_⟩, rfl, fun l => ?_⟩
    · rcases List.mem_cons.mp he with rfl | he
      · trivial
      · obtain ⟨i, rfl, -⟩ := hf e he
        trivial
    · exact isOpen_scans hf

/-- Before `prepare_journal` the segment of the first superblock is the only one returned. -/
theorem Prepared.placed {k1 k2 : Nat} {os : List Outcome}
    (h : Prepared c k1 k2 (Sb.zero os) s') : FirstPlaced c s' := by
  obtain ⟨s1, s2, h1, h2, rfl⟩ := h.steps
  exact (h1.placed.scans h2.scans).scans
    ⟨⟨[.prepared], rfl, by simp [Event.isOther]⟩, rfl, fun _ => rfl⟩

theorem prepareFirst_placed (hc : c.noSegs < 2 ^ 32 - 1) (os : List Outcome) :
    Wp (prepareFirst c) (fun _ s' => FirstPlaced c s') (fun _ s' => Handed c s') (Sb.zero os) := by
  have h0 := running_zero c os
  unfold prepareFirst
  refine (getSegment_spec c _).seq ?_ ?_
  · rintro k s2 ⟨s1, hbad, ht⟩
    have hlt := ht.lt hc (h0.badTurns hbad)
    unfold reserveEntry
    rw [wp_bind]
    refine wp_setEntry_lt hlt ?_
    rw [wp_modify]
    exact First.placed ⟨hlt, s1, s2, hbad, ht, rfl⟩
  · rintro e s2 ⟨s1, hbad, hs⟩
    exact h0.stopped hbad hs

theorem mtdPrepareLoop_scans : ∀ (n segno : Nat) (s : Sb),
    Wp (mtdPrepareLoop c n segno) (fun _ s' => Scans s s') (fun _ s' => Scans s s') s := by
  intro n
  induction n with
  | zero => exact fun _ s => .refl s
  | succ n ih =>
    intro segno s
    unfold mtdPrepareLoop
    refine (mtdErase_cases _ _ s).seq ?_ fun _ s1 h1 => h1 ▸ .refl s1
    rintro ret s1 ⟨hsame, -⟩
    have hone : Scans s { s1 with trace := .scan segno (decide (ret = 0)) :: s1.trace } := by
      rw [hsame]
      exact ⟨⟨[_], rfl, by simp [Event.isOther]⟩, rfl, fun _ => rfl⟩
    rw [wp_bind, wp_note, wp_ite]
    refine ⟨fun _ => ?_, fun _ => ?_⟩
    · exact (ih (segno - 1) _).mono (fun _ _ => hone.trans) fun _ _ => hone.trans
    · unfold reserveEntry
      rw [wp_bind]
      exact wp_setEntry (fun _ => hone.trans ⟨.refl _, rfl, fun _ => rfl⟩) hone

theorem prepareSb_placed (hc : c.noSegs < 2 ^ 32 - 1) (os : List Outcome) :
    Wp (prepareSb c) (fun _ s' => FirstPlaced c s') (fun _ s' => Handed c s') (Sb.zero os) := by
  unfold prepareSb
  cases c.kind with
  | bdev =>
    unfold bdevPrepareSb
    refine (prepareFirst_placed hc os).bind fun _ s1 h1 => ?_
    unfold reserveEntry
    dsimp only
    rw [wp_bind]
    exact wp_setEntry (fun _ => h1.scans ⟨.refl _, rfl, fun _ => rfl⟩) h1.running.handed
  | mtd =>
    unfold mtdPrepareSb
    refine (prepareFirst_placed hc os).bind fun _ s1 h1 => ?_
    refine (mtdPrepareLoop_scans _ _ s1).seq (fun r s2 h2 => ?_)
      fun _ s2 h2 => (h1.scans h2).running.handed
    rw [wp_bind, wp_get, wp_ite]
    exact ⟨fun _ => h1.scans h2, fun _ => h1.scans h2⟩

theorem mkfsPrepare_running (hc : c.noSegs < 2 ^ 32 - 1) (os : List Outcome) :
    Wp (mkfsPrepare c) (fun _ s' => Running c s') (fun _ s' => Handed c s') (Sb.zero os) := by
  unfold mkfsPrepare orFail
  rw [wp_bind]
  refine (prepareSb_placed hc os).bind fun ret s1 h1 => ?_
  rw [wp_ite]
  refine ⟨fun _ => h1.running.handed, fun _ => ?_⟩
  have hs : Scans s1 { s1 with trace := .prepared :: s1.trace } :=
    ⟨⟨[.prepared], rfl, by simp [Event.isOther]⟩, rfl, fun _ => rfl⟩
  exact (h1.scans hs).running

end Prepare

/-! ## Whole runs -/

section Run

variable {c : Cfg} {s s1 s' : Sb} {e : Stop}

theorem Ended.handed (hc : c.noSegs < 2 ^ 32 - 1) (hend : Ended c e s s') (h : Running c s) :
    Handed c s' := by
  rcases hend with ⟨s1, hcalm, hh⟩ | ⟨-, s1, hcalm, hf⟩
  · exact hh.handed hc (hcalm.running hc h)
  · exact hf.handed (hcalm.running hc h)

theorem Besides.trans (h : Besides s s1) (h1 : Besides s1 s') : Besides s s' :=
  ⟨h.trace.trans h1.trace, fun x hx => by
    rw [h1.entry x (by rw [h.trace.erases.1]; exact hx), h.entry x hx],
    h1.lastseg.trans h.lastseg⟩

theorem makeJournal_besides (s : Sb) :
    Wp (makeJournal c) (fun _ s' => Besides s s') (fun _ s' => Besides s s') s := by
  have hdid : ∀ {evs ofs n buf je s'}, Did evs ofs n buf (journalState s je) s' →
      (∀ e ∈ evs, e.isOther) → Besides s s' := fun hd he => by
    rw [hd.same]
    exact ⟨⟨_, rfl, he⟩, fun _ _ => rfl, rfl⟩
  refine (makeJournal_spec (D := fun _ _ => True) fun _ _ _ => trivial).mono ?_ ?_
  · rintro ret s1 ⟨j, je, -, ⟨-, hd⟩ | ⟨-, n, -, hd⟩⟩
    · exact hdid hd (by simp [Event.isOther])
    · exact hdid hd (by simp [Event.isOther])
  · rintro e s1 ⟨je, rfl | ⟨j, n, -, -, hd⟩⟩
    · exact ⟨⟨[], rfl, by simp⟩, fun _ _ => rfl, rfl⟩
    · exact hdid hd (by simp [Event.isOther])

theorem devWrite_besides (t : Target) (ofs size : Nat) (buf : Buf) (s : Sb) :
    Wp (devWrite t ofs size buf) (fun _ s' => Besides s s') (fun _ s' => Besides s s') s := by
  refine (devWrite_spec t ofs size buf s).mono ?_ ?_
  · rintro ret s1 (⟨-, hd⟩ | ⟨-, n, -, hd⟩)
    · exact hd.besides (by simp [Event.isOther])
    · exact hd.besides (by simp [Event.isOther])
  · rintro e s1 ⟨n, -, hd⟩
    exact hd.besides (by simp [Event.isOther])

theorem makeSuper_besides (s : Sb) :
    Wp (makeSuper c) (fun _ s' => Besides s s') (fun _ s' => Besides s s') s := by
  unfold makeSuper
  rw [wp_bind, wp_get]
  refine (devWrite_besides _ _ _ _ s).bind fun ret s1 h1 => ?_
  rw [wp_ite]
  exact ⟨fun _ => (devWrite_besides _ _ _ _ s1).mono (fun _ _ => h1.trans) fun _ _ => h1.trans,
    fun _ => h1⟩

/-- A stage of `mkfs()` that only writes. -/
theorem Handed.orFail {msg : String} {m : MkfsM Int} (h : Handed c s)
    (hm : Wp m (fun _ s' => Besides s s') (fun _ s' => Besides s s') s) :
    Wp (orFail msg m) (fun _ s' => Besides s s') (fun _ s' => Handed c s') s :=
  wp_orFail (hm.mono (fun _ _ hb => ⟨fun _ => hb, fun _ => h.besides hb⟩)
    fun _ _ hb => h.besides hb)

theorem mkfs_handed (hc : c.noSegs < 2 ^ 32 - 1) (os : List Outcome) :
    Wp (mkfs c) (fun _ s' => Handed c s' ∧ History s'.lastseg s'.trace) (fun _ s' => Handed c s')
      (Sb.zero os) := by
  unfold mkfs
  refine Wp.seq (Wp.and (mkfsPrepare_spec rfl) (mkfsPrepare_running hc os)) ?_ fun _ _ h => h.2
  rintro - s1 ⟨⟨k1, k2, hp⟩, h1⟩
  refine (mkfsStore_spec hp.ready).seq ?_ fun _ _ hend => hend.handed hc h1
  intro _ s2 hr
  have hrun := hr.calm.running hc h1
  refine (hrun.handed.orFail (makeJournal_besides s2)).bind ?_
  intro _ s3 h3
  refine ((hrun.handed.besides h3).orFail (makeSuper_besides s3)).mono ?_ fun _ _ h => h
  intro _ s' h4
  have hb := h3.trans h4
  exact ⟨hrun.handed.besides hb, hb.history hrun.history⟩

theorem takenSince_sub {tr : List Event} (h : segno ∈ takenSince tr) :
    (segno, true) ∈ Mkfs.erases tr := by
  have htaken : segno ∈ takenAfter tr := by
    unfold takenSince at h
    split_ifs at h
    · exact h
    · cases h
  clear h
  fun_induction takenAfter tr with
  | case1 => cases htaken
  | case2 => cases htaken
  | case3 segno' tr ih =>
    rcases List.mem_cons.1 htaken with rfl | h
    · exact List.mem_cons_self
    · exact List.mem_cons_of_mem _ (ih h)
  | case4 e tr hprep herase ih =>
    have h := ih htaken
    cases e with
    | erase => exact List.mem_cons_of_mem _ h
    | scan | got | opened | append | issue | done | closed | prepared => exact h

/-- On a device with less than `2 ^ 32 - 1` segments the segment of the second superblock alone
decides whether a segment is used twice. -/
theorem unmixed_iff_sparesSecond (hc : c.noSegs < 2 ^ 32 - 1) (os : List Outcome) :
    let s := after (mkfs c) (Sb.zero os)
    (Unmixed c s ↔ SparesSecond c s) ∧ (SparesSecond c s ↔ secondSegno c s ∉ takenSince s.trace) := by
  intro s
  have hverdict := after_of_wp (mkfs_verdict c os)
  have hhanded := after_of_wp ((mkfs_handed hc os).mono (fun _ _ h => h.1) fun _ _ h => h)
  obtain ⟨n, hhist⟩ := hhanded.history
  have hspares : secondSegno c s ∉ takenSince s.trace → SparesSecond c s := fun hno segno hseg => by
    refine ⟨hhanded.lt segno (hhist.mem_returned.2 (takenSince_sub hseg)), ?_⟩
    rintro rfl
    exact hno hseg
  exact ⟨⟨fun h => hspares (hverdict.untaken h), hverdict.unmixed⟩,
    fun h hmem => (h _ hmem).2 rfl, hspares⟩

/-- What holds of the segments returned in a run, newest first. -/
structure InOrder (c : Cfg) (s : Sb) : Prop where
  increasing : (returned s.trace).Pairwise (· > ·)
  lt : ∀ g ∈ returned s.trace, g < c.noSegs
  erased : ∀ g e new old, s.trace = new ++ .got g e :: old →
    (∃ older, old = .erase g true :: older) ∧ ∀ ok, .erase g ok ∉ new
  skipped : ∀ g ∈ returned s.trace, ∀ g' ∈ returned s.trace, ∀ x, g < x → x < g' →
    (x ∉ returned s.trace ↔ .erase x false ∈ s.trace) ∧
      (x ∉ returned s.trace → s.segmentEntry x = badEntry)

theorem Paired.before {new old : List Event} {g : Nat} {e : SegEntry}
    (h : Paired (new ++ .got g e :: old)) : ∃ older, old = .erase g true :: older := by
  induction new with
  | nil => exact List.head?_eq_some_iff.mp h.1
  | cons ev new ih =>
    cases ev with
    | got => exact ih h.2
    | erase | scan | opened | append | issue | done | closed | prepared => exact ih h

theorem Handed.inOrder (h : Handed c s) : InOrder c s := by
  obtain ⟨n, hh⟩ := h.history
  refine ⟨hh.increasing, h.lt, fun g e new old ht => ?_, fun g hg g' hg' x hx hx' => ?_⟩
  · have hpaired := hh.paired
    have hnodup := hh.nodup
    rw [ht] at hpaired hnodup
    obtain ⟨older, rfl⟩ := hpaired.before
    refine ⟨⟨older, rfl⟩, fun ok hmem => ?_⟩
    rw [erases_append, List.map_append, List.nodup_append] at hnodup
    exact hnodup.2.2 g (List.mem_map_of_mem (mem_erases.mpr hmem)) g List.mem_cons_self rfl
  · have hlt := hh.lt (hh.mem_returned.mp hg')
    refine ⟨⟨fun hno => mem_erases.mp (hh.tried (by omega) hno), fun hmem hret => ?_⟩, fun hno => ?_⟩
    · have heq := hh.unique (hh.mem_returned.mp hret) (mem_erases.mpr hmem)
      cases heq
    · exact h.bad x (hh.tried (by omega) hno) ⟨g, hg, hx⟩ ⟨g', hg', hx'⟩

/-- On a device with less than `2 ^ 32 - 1` segments the segments that `get_segment` returns in a run
are increasing, each of them erased by the call that returns it and by no later one, and those it
skips between two of them are the bad ones.  While a run goes on the counter is not behind the
table; a call from there makes at most as many turns as there are segments left and one more, ends
with a segment of the table or with the message, unless the run is cut off, and never touches an
entry behind the table. -/
theorem getSegment_inOrder (c : Cfg) (hc : c.noSegs < 2 ^ 32 - 1) (os : List Outcome) :
    InOrder c (after (mkfs c) (Sb.zero os)) ∧
    (∀ s1 s, mkfsPrepare c (Sb.zero os) = .ok () s1 → Calm c s1 s → s.lastseg ≤ c.noSegs) ∧
    ∀ s, s.lastseg ≤ c.noSegs →
      (∀ t, c.noSegs - s.lastseg + 1 ≤ t → getSegmentLoop c t s = getSegment c s) ∧
      Wp (getSegment c)
        (fun segno s' => s.lastseg ≤ segno ∧ segno < c.noSegs ∧ s'.lastseg = segno + 1)
        (fun e s' => e = .fail "no more free segments" ∧ s'.lastseg = c.noSegs + 1 ∨
          e = .killed ∧ s'.outcomes = []) s := by
  have hhanded := after_of_wp ((mkfs_handed hc os).mono (fun _ _ h => h.1) fun _ _ h => h)
  refine ⟨hhanded.inOrder, fun s1 s hrun hcalm => ?_, fun s hle => ?_⟩
  · exact (hcalm.running hc ((mkfsPrepare_running hc os).of_ok hrun)).counter
  · refine ⟨fun t ht => getSegment_turns hc hle ht, ?_⟩
    unfold getSegment
    rw [wp_bind, wp_get]
    exact getSegmentLoop_ends hc _ s hle (Nat.lt_succ_self _)

end Run

/-- A block device of sixteen segments, the first of which is bad. -/
theorem getSegment_inOrder_sixteen :
    InOrder sixteenGiB (after (mkfs sixteenGiB) (badStart 1)) ∧
      (2 ≤ (returned (after (mkfs sixteenGiB) (badStart 1)).trace).length) :=
  ⟨(getSegment_inOrder sixteenGiB (by decide) _).1, by decide +kernel⟩

end Logfs.Mkfs
