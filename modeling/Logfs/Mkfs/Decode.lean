import Logfs.Mkfs.Accounts

/-!
# Reading segments back

A reader of an object segment takes the segment header, and then one object
after the other until it meets 0xff.  What it finds in the segments that were
written for an area are the objects of all calls of `logfs_segment_write` that
went to this area, in the order of the calls.
-/

namespace Logfs.Mkfs

open Relation (ReflTransGen)

/-! ## A reader -/

/-- The header of a segment. -/
structure SegHeader where
  crc : List UInt8
  type : Nat
  level : Nat
  segno : Nat
  ec : Nat
  gec : Nat
deriving DecidableEq, Repr

def readSegHeader (buf : Buf) : SegHeader where
  crc := peek buf 0 4
  type := beNat (peek buf 6 1)
  level := beNat (peek buf 7 1)
  segno := beNat (peek buf 8 4)
  ec := beNat (peek buf 12 4)
  gec := beNat (peek buf 16 8)

/-- An object, as it is found in a segment. -/
structure Found where
  pos : Nat
  crc : List UInt8
  len : Nat
  type : Nat
  ino : Nat
  bix : Nat
  dataCrc : List UInt8
  data : List UInt8
deriving DecidableEq, Repr

def readObject (buf : Buf) (pos : Nat) : Found :=
  let len := beNat (peek buf (pos + 4) 2)
  { pos := pos
    crc := peek buf pos 4
    len := len
    type := beNat (peek buf (pos + 6) 1)
    ino := beNat (peek buf (pos + 8) 8)
    bix := beNat (peek buf (pos + 16) 8)
    dataCrc := peek buf (pos + 24) 4
    data := peek buf (pos + objectHeadersize) len }

/-- The objects from `pos` on, up to 0xff or the end of the segment; at most `turns` of them. -/
def scan (buf : Buf) (size : Nat) : Nat → Nat → List Found
  | 0, _ => []
  | turns + 1, pos =>
    if size < pos + objectHeadersize then []
    else
      let o := readObject buf pos
      if o.type = 0xff then [] else o :: scan buf size turns (pos + objectHeadersize + o.len)

/-- A scan of a segment. -/
def scanSegment (c : Cfg) (buf : Buf) : List Found :=
  scan buf c.segsize c.segsize segmentHeadersize

/-- Both checksums are right. -/
def Found.Valid (crc32 : List UInt8 → Nat) (buf : Buf) (f : Found) : Prop :=
  f.crc = logfsCrc32 crc32 (peek buf (f.pos + 4) 20) ∧ f.dataCrc = logfsCrc32 crc32 f.data

/-- What an object says. -/
def Found.content (f : Found) : Nat × Nat × Nat × List UInt8 := (f.type, f.ino, f.bix, f.data)

/-- What the caller has said. -/
def Call.content (ca : Call) : Nat × Nat × Nat × List UInt8 :=
  (ca.type.code, ca.ino, ca.bix, peek ca.data 0 (objLen ca.type))

/-- The arguments are numbers of the types they have, and the level is one of a file. -/
structure Call.Ok (ca : Call) : Prop where
  ino_lt : ca.ino < 2 ^ 64
  bix_lt : ca.bix < 2 ^ 64
  level_lt : ca.level < maxLevels

section Read

variable {c : Cfg} {crc32 : List UInt8 → Nat} {buf : Buf} {pos turns size : Nat} {o : Obj}
  {objs : List Obj}

/-- The parts of a segment header. -/
theorem readSegHeader_eq {type : SegType} {level segno ec gec : Nat} (hl : level < 2 ^ 8)
    (hs : segno < 2 ^ 32) (he : ec < 2 ^ 32) (hg : gec < 2 ^ 64)
    (h : At buf 0 (segmentHeader crc32 type level segno ec gec)) :
    readSegHeader buf =
      ⟨logfsCrc32 crc32 (peek buf 4 20), type.code, level, segno, ec, gec⟩ := by
  unfold segmentHeader at h
  obtain ⟨h1, h2⟩ := at_append.1 h
  rw [logfsCrc32_length] at h2
  have hbody : peek buf 4 20 = segmentHeaderBody type level segno ec gec :=
    h2.peek_eq (by simp [segmentHeaderBody])
  simp only [segmentHeaderBody, at_append, List.append_assoc, be_length] at h2
  obtain ⟨-, ht, hl', hs', he', hg'⟩ := h2
  have htype : type.code < 256 ^ 1 := by cases type <;> decide
  unfold readSegHeader
  rw [hbody, h1.peek_eq (logfsCrc32_length _), show peek buf 6 1 = _ from ht.peek_eq (be_length ..),
    show peek buf 7 1 = _ from hl'.peek_eq (be_length ..),
    show peek buf 8 4 = _ from hs'.peek_eq (be_length ..),
    show peek buf 12 4 = _ from he'.peek_eq (be_length ..),
    show peek buf 16 8 = _ from hg'.peek_eq (be_length ..), beNat_be_of_lt htype,
    beNat_be_of_lt (by omega), beNat_be_of_lt (by omega), beNat_be_of_lt (by omega),
    beNat_be_of_lt (by omega)]

/-- An object is found as it was stored. -/
theorem readObject_eq (hino : o.ino < 2 ^ 64) (hbix : o.bix < 2 ^ 64)
    (h : At buf o.used (o.bytes c)) : (readObject buf o.used).pos = o.used ∧
      (readObject buf o.used).len = objLen o.type ∧
      (readObject buf o.used).content = o.call.content ∧
      (readObject buf o.used).Valid c.crc32 buf := by
  obtain ⟨hh, hd⟩ := at_append.1 h
  rw [objectHeader_length] at hd
  have hdata := hd.peek_eq (peek_length ..)
  unfold objectHeader at hh
  rw [at_append, at_append] at hh
  obtain ⟨⟨h1, h2⟩, h3⟩ := hh
  rw [List.length_append, logfsCrc32_length, objectHeaderBody_length] at h3
  rw [logfsCrc32_length] at h2
  have hbody := h2.peek_eq (objectHeaderBody_length ..)
  simp only [objectHeaderBody, at_append, List.append_assoc, be_length] at h2
  obtain ⟨hl, ht, -, hi, hb⟩ := h2
  have hlen : beNat (peek buf (o.used + 4) 2) = objLen o.type :=
    hl.beNat_eq (by cases o.type <;> decide)
  have htype : beNat (peek buf (o.used + 6) 1) = o.type.code :=
    ht.beNat_eq (by cases o.type <;> decide)
  have hino' : beNat (peek buf (o.used + 8) 8) = o.ino := hi.beNat_eq (by omega)
  have hbix' : beNat (peek buf (o.used + 16) 8) = o.bix := hb.beNat_eq (by omega)
  have hcrc := h1.peek_eq (logfsCrc32_length _)
  have hdcrc : peek buf (o.used + 24) 4 = _ := h3.peek_eq (logfsCrc32_length _)
  refine ⟨rfl, hlen, ?_, ?_, ?_⟩
  · simp only [Found.content, readObject, Call.content, Obj.call, hlen, htype, hino', hbix', hdata]
  · simp only [readObject, hcrc, hbody]
  · simp only [readObject, hlen, hdcrc, hdata]

/-- A scan finds the objects one behind the other, and ends behind the last of them. -/
theorem scan_spec (hok : ∀ o ∈ objs, o.call.Ok) (hat : ∀ o ∈ objs, At buf o.used (o.bytes c))
    (hch : Chained pos objs) (hfits : pos + sizes objs ≤ size)
    (hrest : ∀ i, pos + sizes objs ≤ i → i < size → buf i = 0xff) (hturns : objs.length < turns) :
    (scan buf size turns pos).map Found.content = objs.map (·.call.content) ∧
      ∀ f ∈ scan buf size turns pos, f.Valid c.crc32 buf := by
  induction objs generalizing pos turns with
  | nil =>
    obtain ⟨t, rfl⟩ := Nat.exists_eq_succ_of_ne_zero (show turns ≠ 0 by omega)
    have hnil : scan buf size (t + 1) pos = [] := by
      rw [scan]
      split_ifs with hend
      · rfl
      · have hbyte : buf (pos + 6) = 0xff := by
          refine hrest _ (by rw [sizes_nil]; omega) ?_
          simp only [objectHeadersize] at hend
          omega
        have hff : peek buf (pos + 6) 1 = [0xff] := by simp [peek, hbyte]
        have htype : (readObject buf pos).type = 0xff := by
          unfold readObject
          rw [hff]
          rfl
        dsimp only
        rw [if_pos htype]
    rw [Nat.succ_eq_add_one, hnil]
    simp
  | cons o objs ih =>
    obtain ⟨t, rfl⟩ := Nat.exists_eq_succ_of_ne_zero (show turns ≠ 0 by omega)
    obtain ⟨rfl, hch⟩ := hch
    have ho := hok o List.mem_cons_self
    obtain ⟨-, hlen, hcont, hvalid⟩ := readObject_eq ho.ino_lt ho.bix_lt (hat o List.mem_cons_self)
    rw [sizes_cons] at hfits hrest
    rw [List.length_cons] at hturns
    have hstep : o.used + objectHeadersize + objLen o.type = o.used + o.size := Nat.add_assoc ..
    have htype : (readObject buf o.used).type ≠ 0xff := by
      rw [show (readObject buf o.used).type = o.type.code from congrArg Prod.fst hcont]
      cases o.type <;> decide
    have hunfold : scan buf size (t + 1) o.used =
        readObject buf o.used :: scan buf size t (o.used + o.size) := by
      rw [scan, if_neg (by unfold Obj.size at hfits; omega)]
      dsimp only
      rw [if_neg htype, hlen, hstep]
    obtain ⟨ih1, ih2⟩ := ih (fun o ho => hok o (List.mem_cons_of_mem _ ho))
      (fun o ho => hat o (List.mem_cons_of_mem _ ho)) hch (by omega)
      (fun i hi => hrest i (by omega)) (show objs.length < t by omega)
    rw [Nat.succ_eq_add_one, hunfold]
    exact ⟨by rw [List.map_cons, List.map_cons, hcont, ih1], List.forall_mem_cons.2 ⟨hvalid, ih2⟩⟩

/-- There are fewer objects than bytes. -/
theorem length_le_sizes (objs : List Obj) : objs.length ≤ sizes objs := by
  induction objs with
  | nil => exact Nat.le_refl _
  | cons o objs ih =>
    rw [sizes_cons, List.length_cons]
    simp only [Obj.size, objectHeadersize]
    omega

theorem SegmentObjs.scan {l segno : Nat} (h : SegmentObjs c l segno objs)
    (hok : ∀ o ∈ objs, o.call.Ok) :
    (scanSegment c (segmentBytes c l segno objs)).map Found.content = objs.map (·.call.content) ∧
      ∀ f ∈ scanSegment c (segmentBytes c l segno objs),
        f.Valid c.crc32 (segmentBytes c l segno objs) := by
  have hfits := h.fits
  have hlen := length_le_sizes objs
  refine scan_spec hok (fun o ho => h.at ho) h.chained hfits (fun i hi _ => ?_) ?_
  · refine padded_default ?_
    rw [List.length_append, areaHeader_length, flatMap_bytes_length]
    exact hi
  · simp only [segmentHeadersize] at hfits
    omega

end Read

/-! ## Sequences of calls -/

/-- The calls one after the other, and the offsets they return; nothing when one of them fails. -/
def runSegmentWrites (c : Cfg) : List Call → MkfsM (Option (List Nat))
  | [] => pure (some [])
  | ca :: cas => do
    let ofs ← logfsSegmentWrite c ca.data ca.type ca.ino ca.bix ca.level
    if ofs < 0 then pure none
    else do
      let rest ← runSegmentWrites c cas
      pure (rest.map (ofs.toNat :: ·))

def Call.area (ca : Call) : Nat := areaOf ca.ino ca.level

section Calls

variable {c : Cfg} {s s' : Sb}

/-- Each call stores one object, and returns its offset. -/
theorem runSegmentWrites_spec (calls : List Call) : ∀ s, Ready s →
    Wp (runSegmentWrites c calls)
      (fun r s' => (∃ objs : List Obj, r = some (objs.map (Obj.ofs c)) ∧ objs.map Obj.call = calls ∧
        Ran c objs.reverse s s') ∨ r = none)
      (fun _ _ => True) s := by
  induction calls with
  | nil => exact fun s _ => Or.inl ⟨[], rfl, rfl, .refl c s⟩
  | cons ca cas ih =>
    intro s hready
    unfold runSegmentWrites
    refine (logfsSegmentWrite_spec ca.data ca.type ca.ino ca.bix ca.level hready).seq ?_
      fun _ _ _ => trivial
    rintro ofs s1 (⟨o, ho, rfl, h1⟩ | ⟨rfl, -⟩)
    · rw [if_neg (ofs_not_neg o)]
      refine (ih s1 h1.ready).bind ?_
      rintro r s2 (⟨objs, rfl, hcalls, h2⟩ | rfl)
      · refine Or.inl ⟨o :: objs, by simp, by rw [List.map_cons, hcalls, ho], ?_⟩
        rw [List.reverse_cons]
        exact h1.ran.trans h2
      · exact Or.inr rfl
    · rw [if_pos (by decide)]
      exact Or.inr rfl

/-! ## The segments written -/

/-- A write of an area goes to a segment of the device that no area has any more, and the entry of
the segment has the level of the area. -/
structure EnteredWrite (c : Cfg) (l : Nat) (w : DevWrite) (s : Sb) : Prop where
  lt : l < noAreas
  entry : ∃ segno old new, w.target = .area l segno ∧ segno < c.noSegs ∧
    .closed l segno old new ∈ s.trace ∧ new.ecLevel % 16 = l ∧ s.segmentEntry segno = new ∧
    segno < s.lastseg ∧ ∀ l', isOpen l' s.trace = true → (s.area l').segno ≠ segno

/-- All writes of areas are such. -/
def Entered (c : Cfg) (s : Sb) : Prop := ∀ l, ∀ p ∈ written l s.trace, EnteredWrite c l p.1 s

/-- The entries stay that were set when an area was written. -/
theorem EnteredWrite.keep {l : Nat} {w : DevWrite} (h : EnteredWrite c l w s)
    (hmem : ∀ e ∈ s.trace, e ∈ s'.trace) (hlast : s.lastseg ≤ s'.lastseg)
    (he : ∀ i < s.lastseg, (∀ l', isOpen l' s.trace = true → (s.area l').segno ≠ i) →
      s'.segmentEntry i = s.segmentEntry i)
    (hopen : ∀ l', isOpen l' s'.trace = true → (s'.area l').segno < s.lastseg →
      isOpen l' s.trace = true ∧ (s'.area l').segno = (s.area l').segno) :
    EnteredWrite c l w s' := by
  obtain ⟨segno, old, new, h1, h2, h3, h4, h5, h6, h7⟩ := h.entry
  refine ⟨h.lt, segno, old, new, h1, h2, hmem _ h3, h4, ?_, lt_of_lt_of_le h6 hlast,
    fun l' hl' heq => ?_⟩
  · rw [he segno h6 h7, h5]
  · obtain ⟨ho, hseg⟩ := hopen l' hl' (by rw [heq]; exact h6)
    exact h7 l' ho (hseg.symm.trans heq)

/-- A segment has been tried, and gets an entry or an area. -/
theorem Entered.tried (he : Entered c s) (htrace : ∃ evs, s'.trace = evs ++ s.trace)
    (hw : ∀ l, written l s'.trace = written l s.trace) (hlast : s'.lastseg = s.lastseg + 1)
    (hentry : ∀ i < s.lastseg, s'.segmentEntry i = s.segmentEntry i)
    (hopen : ∀ l, isOpen l s'.trace = true → (s'.area l).segno < s.lastseg →
      isOpen l s.trace = true ∧ (s'.area l).segno = (s.area l).segno) : Entered c s' := by
  intro l p hp
  rw [hw] at hp
  apply (he l p hp).keep _ (Nat.le.intro hlast.symm) (fun i hi _ => hentry i hi) hopen
  intro e hmem
  obtain ⟨evs, htrace⟩ := htrace
  rw [htrace]
  exact List.mem_append_right _ hmem

theorem Entered.close {l : Nat} {buf : Buf} (he : Entered c s) (hc : Counted c s)
    (hw : Writes l buf s) (hseg : (s.area l).segno < c.noSegs) (hlast : s'.lastseg = s.lastseg)
    (harea : s'.area = s.area) (hentry : s'.segmentEntry =
      Function.update s.segmentEntry (s.area l).segno (areaEntry l (s.area l)))
    (htrace : s'.trace =
      .closed l (s.area l).segno (s.segmentEntry (s.area l).segno) (areaEntry l (s.area l)) ::
        .done (areaWrite c l (s.area l) buf) true :: .issue (areaWrite c l (s.area l) buf) ::
          s.trace) : Entered c s' := by
  have hopen : ∀ l', isOpen l' s'.trace = if l = l' then false else isOpen l' s.trace :=
    fun l' => by rw [htrace]; rfl
  have hold : ∀ l', ∀ p ∈ written l' s.trace, EnteredWrite c l' p.1 s' := fun l' p hp => by
    apply (he l' p hp).keep _ (Nat.le_of_eq hlast.symm)
    · intro i _ hi
      rw [hentry, Function.update_of_ne (hi l hw.opened).symm]
    · intro x hx _
      rw [hopen] at hx
      split_ifs at hx
      rw [harea]
      exact ⟨hx, rfl⟩
    · intro e hmem
      rw [htrace]
      exact List.mem_cons_of_mem _ (List.mem_cons_of_mem _ (List.mem_cons_of_mem _ hmem))
  intro l' p hp
  rw [htrace] at hp
  simp only [written, DevWrite.isArea, areaWrite, decide_eq_true_eq] at hp
  split_ifs at hp with heq
  · subst heq
    rcases List.mem_append.1 hp with hp | hp
    · exact hold l p hp
    · rw [List.mem_singleton.1 hp]
      refine ⟨hw.lt, (s.area l).segno, s.segmentEntry (s.area l).segno, areaEntry l (s.area l), rfl,
        hseg, ?_, ?_, ?_, ?_, fun l' hl' hsame => ?_⟩
      · rw [htrace]
        exact List.mem_cons_self
      · have hl := hw.lt
        simp only [noAreas, maxLevels] at hl
        simp only [areaEntry, ecLevel]
        omega
      · rw [hentry, Function.update_self]
      · rw [hlast]
        exact hc.open_lt l hw.opened
      · rw [hopen] at hl'
        split_ifs at hl' with hne
        rw [harea] at hsame
        exact hne (hc.distinct l' l hl' hw.opened hsame).symm
  · exact hold l' p hp

theorem Step.entered (h : Step c s s') (hc : Counted c s) (he : Entered c s) : Entered c s' := by
  have hsame : ∀ {l w}, EnteredWrite c l w s → ∀ {s2 : Sb}, s2.lastseg = s.lastseg →
      s2.segmentEntry = s.segmentEntry → (∀ e ∈ s.trace, e ∈ s2.trace) →
      (∀ l, isOpen l s2.trace = isOpen l s.trace) →
      (∀ l, (s2.area l).segno = (s.area l).segno) → EnteredWrite c l w s2 :=
    fun hw _ hlast hentry hmem hopen harea =>
      hw.keep hmem (Nat.le_of_eq hlast.symm) (fun _ _ _ => by rw [hentry])
        fun l' hl' _ => ⟨(hopen l').symm.trans hl', harea l'⟩
  cases h with
  | create => exact fun l p hp => hsame (he l p hp) rfl rfl (fun _ h => h) (fun _ => rfl) fun _ => rfl
  | modify => exact fun l p hp => hsame (he l p hp) rfl rfl (fun _ h => h) (fun _ => rfl) fun _ => rfl
  | bad h =>
    rw [h.same]
    apply he.tried ⟨[_], rfl⟩
    · exact fun _ => rfl
    · rfl
    · exact fun i hi => Function.update_of_ne (Nat.ne_of_lt hi) _ _
    · exact fun _ hl _ => ⟨hl, rfl⟩
  | @reserve segno s1 _ h hseg =>
    have hlast := h.lastseg hseg
    have hne : ∀ i < s.lastseg, i ≠ segno := fun i hi => by
      rw [h.segno_eq]
      exact Nat.ne_of_lt hi
    rw [h.same] at hlast ⊢
    apply he.tried ⟨[_, _], rfl⟩
    · exact fun _ => rfl
    · exact hlast
    · exact fun i hi => Function.update_of_ne (hne i hi) _ _
    · exact fun _ hl _ => ⟨hl, rfl⟩
  | @fresh l segno s1 _ _ h hseg =>
    have hlast := h.lastseg hseg
    have hge : s.lastseg ≤ segno := Nat.le_of_eq h.segno_eq.symm
    rw [h.same] at hlast ⊢
    apply he.tried ⟨[_, _, _], rfl⟩
    · exact fun _ => rfl
    · exact hlast
    · exact fun _ _ => rfl
    · intro l' hl' hlt
      dsimp only [isOpen] at hl' hlt ⊢
      by_cases heq : l = l'
      · -- the segment of the new area is the one that was tried
        rw [heq, Function.update_self] at hlt
        exact absurd hlt (not_lt.2 hge)
      · rw [if_neg heq] at hl'
        rw [Function.update_of_ne (Ne.symm heq)]
        exact ⟨hl', rfl⟩
  | @append o h =>
    intro l p hp
    have harea : ∀ l', ((appendTo c o s).area l').segno = (s.area l').segno := fun l' => by
      unfold appendTo
      dsimp only
      rw [Function.update_apply]
      split_ifs with hl'
      · rw [hl']
        rfl
      · rfl
    exact hsame (he l p hp) rfl rfl (fun _ => List.mem_cons_of_mem _) (fun _ => rfl) harea
  | close hw hseg h =>
    apply he.close hc hw hseg
    · rw [h.same]
    · rw [h.same]
    · rw [h.same]
    · rw [h.same]
      rfl

theorem Entered.steps (he : Entered c s) (hc : Counted c s) (hf : Fillings c s)
    (h : ReflTransGen (Step c) s s') : Entered c s' := by
  induction h with
  | refl => exact he
  | tail h1 hstep ih => exact hstep.entered (hc.steps hf h1) ih

/-- A write of an area that has succeeded is among those of the area. -/
theorem written_of_done {tr : List Event} {w : DevWrite} {l segno : Nat} (h : .done w true ∈ tr)
    (hw : w.target = .area l segno) : ∃ objs, (w, objs) ∈ written l tr := by
  have harea : w.isArea l = true := by rw [DevWrite.isArea, hw]; exact decide_eq_true rfl
  induction tr with
  | nil => cases h
  | cons e tr ih =>
    rcases List.mem_cons.1 h with rfl | h
    · exact ⟨filling l tr, by rw [written, if_pos harea]; simp⟩
    · obtain ⟨objs, hmem⟩ := ih h
      refine ⟨objs, ?_⟩
      cases e with
      | done w' ok =>
        cases ok with
        | false => exact hmem
        | true =>
          rw [written]
          split_ifs
          · exact List.mem_append_left _ hmem
          · exact hmem
      | _ => exact hmem

/-- A segment that was written for an area, with these objects. -/
structure SegmentDecodes (c : Cfg) (l segno : Nat) (w : DevWrite) (objs : List Obj) (s : Sb) :
    Prop where
  held : (w, objs) ∈ written l s.trace
  place : w.ofs = segno * c.segsize ∧ w.size = c.segsize ∧ segno < c.noSegs
  header : readSegHeader w.buf =
    ⟨logfsCrc32 c.crc32 (peek w.buf 4 20), SegType.ostore.code, l, segno, 1, segno⟩
  scanned : (scanSegment c w.buf).map Found.content = objs.map (·.call.content)
  valid : ∀ f ∈ scanSegment c w.buf, f.Valid c.crc32 w.buf
  used : segmentHeadersize + sizes objs ≤ c.segsize
  rest : ∀ i, segmentHeadersize + sizes objs ≤ i → i < c.segsize → w.buf i = 0xff
  level : ∀ o ∈ objs, l = if o.ino = inoMaster then o.level + maxLevels else o.level
  entry : ∃ old new, .closed l segno old new ∈ s.trace ∧ new.ecLevel % 16 = l ∧
    s.segmentEntry segno = new

/-- All segments decode, and what is found in those of an area are the calls for this area. -/
structure SegmentsDecode (c : Cfg) (calls : List Call) (s : Sb) : Prop where
  calls : ∀ l, ((written l s.trace).flatMap fun p => (scanSegment c p.1.buf).map Found.content) =
    (calls.filter (·.area = l)).map Call.content
  each : ∀ w l segno, .done w true ∈ s.trace → w.target = .area l segno →
    ∃ objs, SegmentDecodes c l segno w objs s

theorem Blank.entered (hb : Blank c s) : Entered c s := fun l p hp => by
  rw [hb.quiet.written] at hp
  cases hp

/-- The segments of the objects that were stored, when no area is open any more. -/
theorem Blank.segmentsDecode {objs : List Obj} (hb : Blank c s) (hsteps : ReflTransGen (Step c) s s')
    (hobjs : objects s'.trace = objs.reverse) (hok : ∀ ca ∈ objs.map Obj.call, ca.Ok)
    (hclosed : ∀ l, isOpen l s'.trace = false) : SegmentsDecode c (objs.map Obj.call) s' := by
  have hcalm : Calm c s s' := ReflTransGen.mono (fun _ _ h => Or.inl h) _ _ hsteps
  have hf := hcalm.fillings hb.fillings
  have hent := hb.entered.steps hb.counted hb.fillings hsteps
  have hall : ∀ l, (written l s'.trace).flatMap Prod.snd = objs.filter (·.area = l) := fun l => by
    have h := hf.all l
    rw [hclosed, if_neg (by decide), List.append_nil, objectsOf, hobjs, List.reverse_reverse] at h
    exact h.symm
  have hokObj : ∀ l, ∀ p ∈ written l s'.trace, ∀ o ∈ p.2, o.call.Ok := fun l p hp o ho => by
    refine hok _ (List.mem_map_of_mem ?_)
    have hmem : o ∈ (written l s'.trace).flatMap Prod.snd := List.mem_flatMap.2 ⟨p, hp, ho⟩
    rw [hall] at hmem
    exact List.mem_of_mem_filter hmem
  have harea : ∀ o ∈ objs, o.call.area = o.area := fun o ho => by
    have ho' : o ∈ objects s'.trace := by rw [hobjs]; exact List.mem_reverse.2 ho
    obtain ⟨p, hp, hop⟩ := hf.mem_written hclosed ho'
    obtain ⟨segno, -, hso⟩ := hf.writes _ p hp
    exact (hso.place o hop).2.2
  have hscan : ∀ l, ∀ p ∈ written l s'.trace,
      (scanSegment c p.1.buf).map Found.content = p.2.map (·.call.content) ∧
      ∀ f ∈ scanSegment c p.1.buf, f.Valid c.crc32 p.1.buf := fun l p hp => by
    obtain ⟨segno, hw, hso⟩ := hf.writes l p hp
    rw [hw]
    exact hso.scan (hokObj l p hp)
  refine ⟨fun l => ?_, fun w l segno hw htarget => ?_⟩
  · calc (written l s'.trace).flatMap (fun p => (scanSegment c p.1.buf).map Found.content)
        = (written l s'.trace).flatMap fun p => p.2.map (·.call.content) :=
          List.flatMap_congr fun p hp => (hscan l p hp).1
      _ = ((written l s'.trace).flatMap Prod.snd).map (·.call.content) := List.map_flatMap.symm
      _ = (objs.filter (·.area = l)).map (·.call.content) := by rw [hall]
      _ = ((objs.map Obj.call).filter (·.area = l)).map Call.content := by
        rw [List.filter_map, List.map_map]
        congr 1
        refine List.filter_congr fun o ho => ?_
        rw [Function.comp_apply, harea o ho]
  · obtain ⟨held, hmem⟩ := written_of_done hw htarget
    obtain ⟨segno', hw', hso⟩ := hf.writes l _ hmem
    obtain ⟨hlt, segno'', old, new, ht, hseg, hclo, hlevel, hentry, -⟩ := hent l _ hmem
    dsimp only at hw' ht
    rw [ht, Target.area.injEq] at htarget
    obtain ⟨-, rfl⟩ := htarget
    rw [hw', Target.area.injEq] at ht
    obtain ⟨-, rfl⟩ := ht
    have hsegs := c.noSegs_lt
    have hl : l < 256 := by
      simp only [noAreas, maxLevels] at hlt
      omega
    refine ⟨held, hmem, ?_, ?_, (hscan l _ hmem).1, (hscan l _ hmem).2, hso.fits, fun i hi _ => ?_,
      fun o ho => ?_, old, new, hclo, hlevel, hentry⟩
    · rw [hw']
      exact ⟨rfl, rfl, hseg⟩
    · refine readSegHeader_eq (by omega) (by omega) (by decide) (by omega) ?_
      rw [hw']
      have h := at_padded 0xff (areaHeader c l segno' ++ held.flatMap (Obj.bytes c))
      exact (at_append.1 h).1
    · rw [hw']
      refine padded_default ?_
      rw [List.length_append, areaHeader_length, flatMap_bytes_length]
      exact hi
    · have hplace := (hso.place o ho).2.2
      have hol : o.level < maxLevels := (hokObj l _ hmem o ho).level_lt
      simp only [areaOf, maxLevels] at hplace hol ⊢
      split_ifs at hplace ⊢ with hm
      · omega
      · exact hplace.symm

/-- Calls of `logfs_segment_write` that have stored these objects, and `flush_segments`. -/
structure CallsRan (c : Cfg) (objs : List Obj) (s0 s1 s2 : Sb) : Prop where
  calm : Calm c s0 s1
  steps : ReflTransGen (Step c) s0 s2
  objects1 : objects s1.trace = objs.reverse
  objects2 : objects s2.trace = objs.reverse
  closed : ∀ l, isOpen l s2.trace = false

theorem callsRan {calls : List Call} {s0 s1 s2 : Sb} {ofss : List Nat} (hblank : Blank c s0)
    (h1 : runSegmentWrites c calls s0 = .ok (some ofss) s1) (h2 : flushSegments c s1 = .ok 0 s2) :
    ∃ objs, ofss = objs.map (Obj.ofs c) ∧ calls = objs.map Obj.call ∧ CallsRan c objs s0 s1 s2 := by
  obtain ⟨objs, hofss, hcalls, hran⟩ :=
    ((runSegmentWrites_spec calls s0 hblank.ready).of_ok h1).resolve_right (by simp)
  obtain ⟨-, hflush⟩ := ((flushSegments_spec (hran.ready hblank.ready)).of_ok h2).resolve_right
    fun h => absurd h.1 (by decide)
  have hcalm := hran.calm.trans hflush.calm
  have hclosed : ∀ l, isOpen l s2.trace = false := fun l => by
    rcases Nat.lt_or_ge l noAreas with hl | hl
    · exact hflush.closed l (Nat.zero_le _) (by omega)
    · rw [hcalm.isOpen_ge hl, hblank.quiet.isOpen]
  have hobjs : objects s1.trace = objs.reverse := by
    rw [hran.objects, hblank.quiet.objects, List.append_nil]
  refine ⟨objs, Option.some_inj.1 hofss, hcalls.symm, hran.calm, hcalm.steps fun ⟨l, hl, _⟩ => ?_,
    hobjs, by rw [hflush.objects, hobjs], hclosed⟩
  rw [hclosed] at hl
  cases hl

/-- The segments that any sequence of calls of `logfs_segment_write` has filled read back as the
objects of these calls. -/
theorem segments_decode (c : Cfg) (calls : List Call) (s0 s1 s2 : Sb) (ofss : List Nat)
    (hblank : Blank c s0) (hok : ∀ ca ∈ calls, ca.Ok)
    (h1 : runSegmentWrites c calls s0 = .ok (some ofss) s1) (h2 : flushSegments c s1 = .ok 0 s2) :
    SegmentsDecode c calls s2 ∧ ∀ l, isOpen l s1.trace = true → (s1.area l).usedBytes ≤ c.segsize := by
  obtain ⟨objs, -, rfl, hran⟩ := callsRan hblank h1 h2
  refine ⟨hblank.segmentsDecode hran.steps hran.objects2 hok hran.closed, fun l hl => ?_⟩
  have hold := (hran.calm.fillings hblank.fillings).area l hl
  rw [hold.used]
  exact hold.objs.fits

/-- The calls succeed. -/
def returnsSome {α : Type} (m : MkfsM (Option α)) (s : Sb) : Bool :=
  match m s with
  | .ok r _ => r.isSome
  | .error _ _ => false

theorem ok_of_returnsSome {α : Type} {m : MkfsM (Option α)} {s : Sb} (h : returnsSome m s = true) :
    ∃ a, m s = .ok (some a) (after m s) := by
  unfold returnsSome at h
  unfold after
  cases hm : m s with
  | ok r s' =>
    rw [hm] at h
    obtain ⟨a, rfl⟩ := Option.isSome_iff_exists.1 h
    exact ⟨a, rfl⟩
  | error e s' => rw [hm] at h; cases h

/-- Three blocks of a file, for a segment that has room for one, an inode and a name. -/
def sampleCalls : List Call :=
  [⟨.block, 20, 0, 0, fun _ => 1⟩, ⟨.inode, inoMaster, 20, 0, fun _ => 2⟩,
    ⟨.block, 20, 1, 0, fun _ => 3⟩, ⟨.dentry, 20, 7, 0, fun _ => 4⟩, ⟨.block, 20, 600, 0, fun _ => 5⟩]

theorem sampleCalls_ok : ∀ ca ∈ sampleCalls, ca.Ok := by
  have h : sampleCalls.all (fun ca => ca.ino < 2 ^ 64 ∧ ca.bix < 2 ^ 64 ∧ ca.level < maxLevels) =
      true := by decide
  intro ca hca
  have := of_decide_eq_true (List.all_eq_true.1 h ca hca)
  exact ⟨this.1, this.2.1, this.2.2⟩

theorem segments_decode_small :
    let s0 := Sb.zero (List.replicate 20 (.ok 8192))
    SegmentsDecode disk300 sampleCalls
      (after (flushSegments disk300) (after (runSegmentWrites disk300 sampleCalls) s0)) := by
  intro s0
  obtain ⟨ofss, h1⟩ := ok_of_returnsSome (m := runSegmentWrites disk300 sampleCalls) (s := s0)
    (by decide +kernel)
  have h2 := ok_of_returnsZero (m := flushSegments disk300)
    (s := after (runSegmentWrites disk300 sampleCalls) s0) (by decide +kernel)
  exact (segments_decode disk300 sampleCalls s0 _ _ ofss (blank_zero _ _) sampleCalls_ok h1 h2).1

end Calls

end Logfs.Mkfs
