import Logfs.Mkfs.Image

/-!
# The pointers to the objects

`logfs_segment_write` returns a pointer before the segment is written, a product
of 32 bit numbers plus the place in the segment.  On the device the object is at
the place itself.
-/

namespace Logfs.Mkfs

open Relation (ReflTransGen)

/-! ## Objects apart from each other -/

/-- Objects do not overlap, and those in the segment of an open area are in its buffer. -/
structure Laid (s : Sb) : Prop where
  lt : ∀ o ∈ objects s.trace, o.segno < s.lastseg
  below : ∀ o ∈ objects s.trace, ∀ l, isOpen l s.trace = true → (s.area l).segno = o.segno →
    o.used + o.size ≤ (s.area l).usedBytes
  apart : (objects s.trace).Pairwise fun o o' => o.segno = o'.segno → o'.used + o'.size ≤ o.used

section Laid

variable {c : Cfg} {s s1 s' : Sb} {segno : Nat}

theorem Laid.congr (hl : Laid s) (hlast : s.lastseg ≤ s'.lastseg)
    (hobj : objects s'.trace = objects s.trace)
    (hopen : ∀ l, isOpen l s'.trace = true → s.lastseg ≤ (s'.area l).segno ∨
      isOpen l s.trace = true ∧ s'.area l = s.area l) : Laid s' where
  lt o ho := lt_of_lt_of_le (hl.lt o (hobj ▸ ho)) hlast
  below o ho l h hs := by
    rw [hobj] at ho
    rcases hopen l h with hge | ⟨ho', ha⟩
    · have := hl.lt o ho
      omega
    · rw [ha] at hs ⊢
      exact hl.below o ho l ho' hs
  apart := hobj ▸ hl.apart

theorem Laid.append {o : Obj} (hl : Laid s) (hc : Counted c s) (h : Placed c s o) :
    Laid (appendTo c o s) := by
  have hsegno : ∀ l, ((appendTo c o s).area l).segno = (s.area l).segno := fun l => by
    unfold appendTo
    dsimp only
    rw [Function.update_apply]
    split_ifs with heq
    · rw [heq]
      rfl
    · rfl
  have hsame : ∀ l, isOpen l s.trace = true → (s.area l).segno = o.segno → l = o.area :=
    fun l hl' hs => hc.distinct l o.area hl' h.opened (hs.trans h.segno_eq)
  have hused : ((appendTo c o s).area o.area).usedBytes = o.used + o.size := by
    unfold appendTo
    dsimp only
    rw [Function.update_self, h.used_eq]
    simp only [copyObj, copybuf, objectHeader_length, peek_length, Obj.size]
    omega
  refine ⟨fun o' ho' => ?_, fun o' ho' l hopen hs => ?_, ?_⟩
  · rcases List.mem_cons.1 ho' with rfl | ho'
    · rw [h.segno_eq]
      exact hc.open_lt _ h.opened
    · exact hl.lt o' ho'
  · rw [hsegno] at hs
    rcases List.mem_cons.1 ho' with rfl | ho'
    · rw [hsame l hopen hs, hused]
    · have hold := hl.below o' ho' l hopen hs
      by_cases heq : l = o.area
      · subst heq
        rw [hused, h.used_eq]
        omega
      · unfold appendTo
        dsimp only
        rwa [Function.update_of_ne heq]
  · refine List.pairwise_cons.2 ⟨fun o' ho' hs => ?_, hl.apart⟩
    rw [h.used_eq]
    exact hl.below o' ho' o.area h.opened (h.segno_eq.symm.trans hs)

theorem Step.laid (h : Step c s s') (hc : Counted c s) (hl : Laid s) : Laid s' := by
  cases h with
  | create => exact hl.congr (Nat.le_refl _) rfl fun l h => Or.inr ⟨h, rfl⟩
  | modify => exact hl.congr (Nat.le_refl _) rfl fun l h => Or.inr ⟨h, rfl⟩
  | bad h =>
    refine hl.congr (by rw [h.same]; exact Nat.le_succ _) h.sameAreas.objects fun l ho => Or.inr ?_
    rw [h.sameAreas.isOpen] at ho
    exact ⟨ho, by rw [h.sameAreas.area]⟩
  | reserve _ h hseg =>
    refine hl.congr (by rw [h.lastseg hseg]; exact Nat.le_succ _) h.sameAreas.objects
      fun l ho => Or.inr ⟨(h.sameAreas.isOpen l).symm.trans ho, ?_⟩
    dsimp only
    rw [h.sameAreas.area]
  | @fresh l segno s1 _ _ h hseg =>
    refine hl.congr (by rw [h.lastseg hseg]; exact Nat.le_succ _) h.sameAreas.objects
      fun l' ho => ?_
    dsimp only [isOpen] at ho ⊢
    by_cases heq : l = l'
    · subst heq
      rw [Function.update_self, openedArea]
      exact Or.inl (le_of_eq h.segno_eq.symm)
    · rw [if_neg heq, h.sameAreas.isOpen] at ho
      rw [Function.update_of_ne (Ne.symm heq), h.sameAreas.area]
      exact Or.inr ⟨ho, rfl⟩
  | append h => exact hl.append hc h
  | @close l buf s1 _ _ h =>
    refine hl.congr (by rw [h.same]) (by rw [h.same]; rfl) fun l' ho => Or.inr ?_
    rw [h.same] at ho ⊢
    dsimp only [isOpen, List.cons_append, List.nil_append] at ho ⊢
    split_ifs at ho
    exact ⟨ho, rfl⟩

theorem Laid.steps (hl : Laid s) (hc : Counted c s) (hf : Fillings c s)
    (h : ReflTransGen (Step c) s s') : Laid s' := by
  induction h with
  | refl => exact hl
  | tail h1 hstep ih => exact hstep.laid (hc.steps hf h1) ih

theorem Blank.laid (hb : Blank c s) : Laid s where
  lt o ho := by
    rw [hb.quiet.objects] at ho
    cases ho
  below o ho := by
    rw [hb.quiet.objects] at ho
    cases ho
  apart := by
    rw [hb.quiet.objects]
    exact List.Pairwise.nil

theorem Blank.image (hb : Blank c s) (herased : ∀ x, s.content eraseBuf x = 0xff) : Image c s := by
  have hput : ∀ {l segno p}, ¬ Put l segno p s.trace := fun {l segno p} h => by
    have := h.mem
    rw [hb.quiet.written] at this
    cases this
  exact ⟨fun h => absurd h hput, fun h => absurd h hput, fun h => absurd h hput,
    fun x _ => herased x⟩

end Laid

/-! ## The device and the pointers -/

/-- The bytes a call puts into its segment. -/
def Call.bytes (c : Cfg) (ca : Call) : List UInt8 :=
  let data := peek ca.data 0 (objLen ca.type)
  objectHeader c.crc32 ca.type ca.ino ca.bix data ++ data

/-- The calls have returned pointers to their objects, which do not overlap. -/
structure PointersRight (c : Cfg) (calls : List Call) (ofss : List Nat) (dev : Buf) : Prop where
  stored : List.Forall₂ (fun ca ofs => At dev ofs (ca.bytes c)) calls ofss
  disjoint : (calls.zip ofss).Pairwise fun a b =>
    a.2 + (a.1.bytes c).length ≤ b.2 ∨ b.2 + (b.1.bytes c).length ≤ a.2

section Pointers

variable {c : Cfg} {s s' : Sb} {o : Obj} {objs : List Obj}

theorem Call.bytes_call (c : Cfg) (o : Obj) : o.call.bytes c = o.bytes c := rfl

/-- The segments tile the range of a pointer. -/
theorem ofs_eq (c : Cfg) (hused : o.used < c.segsize) :
    ∃ k, k * c.segsize = 2 ^ 32 ∧ o.ofs c = o.segno % k * c.segsize + o.used := by
  obtain ⟨k, hk⟩ := c.segsize_dvd
  have hk : k * c.segsize = 2 ^ 32 := by rw [hk, Nat.mul_comm]
  have hpos : 0 < k := Nat.pos_of_ne_zero fun h => by simp [h] at hk
  refine ⟨k, hk, ?_⟩
  have hlt : (o.segno % k + 1) * c.segsize ≤ k * c.segsize :=
    Nat.mul_le_mul_right _ (Nat.mod_lt _ hpos)
  rw [Nat.add_mul, Nat.one_mul] at hlt
  have hsplit : o.segno * c.segsize = o.segno % k * c.segsize + 2 ^ 32 * (o.segno / k) := by
    conv_lhs => rw [← Nat.mod_add_div o.segno k]
    rw [Nat.add_mul, ← hk]
    ring
  unfold Obj.ofs
  rw [hsplit, Nat.add_right_comm, Nat.add_mul_mod_self_left, Nat.mod_eq_of_lt (by omega)]

theorem ofs_of_lt (hused : o.used < c.segsize) (h : o.segno * c.segsize < 2 ^ 32) :
    o.ofs c = o.segno * c.segsize + o.used := by
  obtain ⟨k, hk, hofs⟩ := ofs_eq c hused
  rw [hofs, Nat.mod_eq_of_lt (Nat.lt_of_mul_lt_mul_right (hk ▸ h))]

/-- Objects one behind the other leave no gap. -/
theorem chained_cover {pos u : Nat} (h : Chained pos objs) (hu : pos ≤ u) (hlt : u < pos + sizes objs) :
    ∃ o ∈ objs, o.used ≤ u ∧ u < o.used + o.size := by
  induction objs generalizing pos with
  | nil =>
    rw [sizes_nil] at hlt
    omega
  | cons o objs ih =>
    obtain ⟨rfl, h⟩ := h
    rw [sizes_cons] at hlt
    by_cases hin : u < o.used + o.size
    · exact ⟨o, List.mem_cons_self, hu, hin⟩
    · obtain ⟨o', ho', h'⟩ := ih h (by omega) (by omega)
      exact ⟨o', List.mem_cons_of_mem _ ho', h'⟩

/-- A run at whose end all objects have been written. -/
structure Placements (c : Cfg) (s : Sb) : Prop where
  image : Image c s
  laid : Laid s
  fillings : Fillings c s
  closed : ∀ l, isOpen l s.trace = false

/-- Where an object is. -/
structure InPlace (c : Cfg) (s : Sb) (o : Obj) (segno : Nat) (objs : List Obj) : Prop where
  mem : o ∈ objs
  segno_eq : o.segno = segno
  holds : SegmentObjs c o.area segno objs
  content : ∀ init i, i < c.segsize →
    s.content init (segno * c.segsize + i) = segmentBytes c o.area segno objs i

theorem Placements.inPlace (h : Placements c s) (ho : o ∈ objects s.trace) :
    ∃ objs, InPlace c s o o.segno objs := by
  obtain ⟨p, hp, hop⟩ := h.fillings.mem_written h.closed ho
  obtain ⟨segno, hw, hso⟩ := h.fillings.writes _ p hp
  obtain rfl : o.segno = segno := (hso.place o hop).2.1
  refine ⟨p.2, hop, rfl, hso, fun init i hi => ?_⟩
  rw [h.image.content ⟨hp, by rw [hw]⟩ init i hi, hw]

theorem SegmentObjs.inside {l segno : Nat} (h : SegmentObjs c l segno objs) (ho : o ∈ objs) :
    segmentHeadersize ≤ o.used ∧ o.used + o.size ≤ segmentHeadersize + sizes objs := by
  obtain ⟨A, B, rfl⟩ := List.append_of_mem ho
  rw [chained_used h.chained, sizes_append, sizes_cons]
  omega

theorem InPlace.used_lt {segno : Nat} (h : InPlace c s o segno objs) :
    segmentHeadersize ≤ o.used ∧ o.used + o.size ≤ c.segsize ∧ 28 ≤ o.size := by
  have := h.holds.inside h.mem
  have := h.holds.fits
  have : 28 ≤ o.size := Nat.le_add_right _ _
  omega

/-- The object is on the device. -/
theorem InPlace.at {segno : Nat} (h : InPlace c s o segno objs) (init : Buf) :
    At (s.content init) (segno * c.segsize + o.used) (o.bytes c) := by
  have hat := h.holds.at h.mem
  obtain ⟨-, hfits, -⟩ := h.used_lt
  rw [at_iff] at hat ⊢
  intro i hi
  rw [Obj.bytes_length] at hi
  rw [Nat.add_assoc, h.content init _ (by omega), hat i (by rwa [Obj.bytes_length])]

/-- Below four gigabytes the pointers are right. -/
theorem Placements.right (h : Placements c s) (hobjs : objects s.trace = objs.reverse)
    (hlow : ∀ o ∈ objs, o.segno * c.segsize < 2 ^ 32) (init : Buf) :
    PointersRight c (objs.map Obj.call) (objs.map (Obj.ofs c)) (s.content init) := by
  have hplace : ∀ o ∈ objs, ∃ objs', InPlace c s o o.segno objs' := fun o ho =>
    h.inPlace (by rw [hobjs]; exact List.mem_reverse.2 ho)
  have hofs : ∀ o ∈ objs, o.ofs c = o.segno * c.segsize + o.used := fun o ho => by
    obtain ⟨objs', hp⟩ := hplace o ho
    obtain ⟨-, hfits, hsize⟩ := hp.used_lt
    exact ofs_of_lt (by omega) (hlow o ho)
  constructor
  · rw [List.forall₂_map_left_iff, List.forall₂_map_right_iff, List.forall₂_same]
    intro o ho
    obtain ⟨objs', hp⟩ := hplace o ho
    rw [hofs o ho]
    exact hp.at init
  · rw [List.zip_map', List.pairwise_map]
    have hapart := h.laid.apart
    rw [hobjs, List.pairwise_reverse] at hapart
    refine hapart.imp_of_mem fun {a b} ha hb hab => ?_
    dsimp only
    rw [Call.bytes_call, Call.bytes_call, Obj.bytes_length, Obj.bytes_length, hofs a ha, hofs b hb]
    obtain ⟨_, hpa⟩ := hplace a ha
    obtain ⟨_, hpb⟩ := hplace b hb
    obtain ⟨-, hfa, -⟩ := hpa.used_lt
    obtain ⟨-, hfb, -⟩ := hpb.used_lt
    rcases Nat.lt_trichotomy a.segno b.segno with hlt | heq | hgt
    · have : (a.segno + 1) * c.segsize ≤ b.segno * c.segsize := Nat.mul_le_mul_right _ hlt
      rw [Nat.add_mul, Nat.one_mul] at this
      omega
    · have := hab heq.symm
      rw [heq]
      omega
    · have : (b.segno + 1) * c.segsize ≤ a.segno * c.segsize := Nat.mul_le_mul_right _ hgt
      rw [Nat.add_mul, Nat.one_mul] at this
      omega

/-- The type of an object is not 0xff. -/
theorem type_byte {buf : Buf} {pos : Nat} (h : At buf pos (o.bytes c)) : buf (pos + 6) ≠ 0xff := by
  intro hff
  obtain ⟨hh, -⟩ := at_append.1 h
  unfold objectHeader at hh
  rw [at_append, at_append] at hh
  obtain ⟨⟨-, h2⟩, -⟩ := hh
  rw [logfsCrc32_length] at h2
  simp only [objectHeaderBody, at_append, List.append_assoc, be_length] at h2
  have htype : beNat (peek buf (pos + 6) 1) = o.type.code :=
    h2.2.1.beNat_eq (by cases o.type <;> decide)
  have hpeek : peek buf (pos + 6) 1 = [0xff] := by simp [peek, hff]
  rw [hpeek] at htype
  revert htype
  cases o.type <;> decide

/-- What is on the device at a place of a segment where no object begins. -/
theorem Placements.at_of_high (h : Placements c s) (segno : Nat) {used : Nat}
    (hused : segmentHeadersize ≤ used) (hin : used + 6 < c.segsize) :
    s.content eraseBuf (segno * c.segsize + used + 6) = 0xff ∨
      ∃ o ∈ objects s.trace, o.segno = segno ∧ o.used ≤ used ∧ used < o.used + o.size := by
  rw [Nat.add_assoc]
  by_cases hput : ∃ l p, Put l segno p s.trace
  · obtain ⟨l, p, hp⟩ := hput
    obtain ⟨segno', hw, hso⟩ := h.fillings.writes l p hp.mem
    have ht := hp.target
    rw [hw, Target.area.injEq] at ht
    obtain ⟨-, rfl⟩ := ht
    by_cases hlt : used < segmentHeadersize + sizes p.2
    · obtain ⟨o, ho, hle, hlt⟩ := chained_cover hso.chained hused hlt
      exact Or.inr ⟨o, h.fillings.mem_objects hp.mem ho, (hso.place o ho).2.1, hle, hlt⟩
    · left
      rw [h.image.content hp _ _ hin, hw]
      refine padded_default ?_
      rw [List.length_append, areaHeader_length, flatMap_bytes_length]
      omega
  · left
    refine h.image.erased _ fun {l segno' p} hp hseg => ?_
    by_cases heq : segno = segno'
    · subst heq
      exact hput ⟨l, p, hp⟩
    · exact not_inSegment heq hin hseg

/-- A pointer that has lost its high bits does not point to the object. -/
theorem Placements.low (h : Placements c s) (hobjs : objects s.trace = objs.reverse)
    (hr : PointersRight c (objs.map Obj.call) (objs.map (Obj.ofs c)) (s.content eraseBuf))
    (ho : o ∈ objs) : o.segno * c.segsize < 2 ^ 32 := by
  by_contra hge
  have hmem : ∀ {o}, o ∈ objects s.trace ↔ o ∈ objs := by
    intro o
    rw [hobjs, List.mem_reverse]
  obtain ⟨objs', hp⟩ := h.inPlace (hmem.2 ho)
  obtain ⟨hu, hfits, hsize⟩ := hp.used_lt
  obtain ⟨k, hk, hofs⟩ := ofs_eq c (o := o) (by omega)
  have hpos : 0 < k := Nat.pos_of_ne_zero fun h => by simp [h] at hk
  have hlt : o.segno % k < k := Nat.mod_lt _ hpos
  have hhigh : k ≤ o.segno := by
    by_contra hsmall
    have := Nat.mul_lt_mul_of_pos_right (not_le.1 hsmall) c.segsize_pos
    omega
  have hat : At (s.content eraseBuf) (o.ofs c) (o.bytes c) := by
    have hstored := hr.stored
    rw [List.forall₂_map_left_iff, List.forall₂_map_right_iff, List.forall₂_same] at hstored
    exact hstored o ho
  have hbyte := type_byte hat
  rw [hofs] at hbyte
  rcases h.at_of_high (o.segno % k) hu (by omega) with hff | ⟨o', ho', hseg, hle, hcover⟩
  · exact hbyte hff
  -- another object is there, whose pointer is right
  obtain ⟨objs'', hp'⟩ := h.inPlace ho'
  obtain ⟨-, hfits', hsize'⟩ := hp'.used_lt
  have hlow : o'.segno * c.segsize < 2 ^ 32 := by
    have := Nat.mul_lt_mul_of_pos_right (hseg ▸ hlt) c.segsize_pos
    omega
  have hofs' := ofs_of_lt (o := o') (c := c) (by omega) hlow
  have hdis := hr.disjoint
  rw [List.zip_map', List.pairwise_map] at hdis
  have hsymm : Std.Symm fun a b : Obj => a.ofs c + (a.call.bytes c).length ≤ b.ofs c ∨
      b.ofs c + (b.call.bytes c).length ≤ a.ofs c := ⟨fun _ _ h => h.symm⟩
  have hne : o ≠ o' := by
    rintro rfl
    omega
  have := hdis.forall ho (hmem.1 ho') hne
  rw [Call.bytes_call, Call.bytes_call, Obj.bytes_length, Obj.bytes_length, hofs, hofs', hseg] at this
  omega

/-- The pointers that the calls return are right, whatever was on the device, just when the
objects are in segments that begin below four gigabytes. -/
theorem pointers_right_iff (c : Cfg) (calls : List Call) (s0 s1 s2 : Sb) (ofss : List Nat)
    (hblank : Blank c s0) (herased : ∀ x, s0.content eraseBuf x = 0xff)
    (h1 : runSegmentWrites c calls s0 = .ok (some ofss) s1) (h2 : flushSegments c s1 = .ok 0 s2) :
    (∀ init, PointersRight c calls ofss (s2.content init)) ↔
      ∀ o ∈ objects s1.trace, o.segno * c.segsize < 2 ^ 32 := by
  obtain ⟨objs, rfl, rfl, hran⟩ := callsRan hblank h1 h2
  have hplace : Placements c s2 :=
    ⟨(hblank.image herased).steps hblank.counted hblank.fillings hran.steps,
      hblank.laid.steps hblank.counted hblank.fillings hran.steps,
      Calm.fillings (ReflTransGen.mono (fun _ _ h => Or.inl h) _ _ hran.steps) hblank.fillings,
      hran.closed⟩
  rw [hran.objects1]
  constructor
  · exact fun hr o ho => hplace.low hran.objects2 (hr _) (List.mem_reverse.1 ho)
  · exact fun hlow => hplace.right hran.objects2 fun o ho => hlow o (List.mem_reverse.2 ho)

theorem pointers_right_iff_small :
    let s0 := Sb.zero (List.replicate 20 (.ok 8192))
    ∃ ofss, ∀ init, PointersRight disk300 sampleCalls ofss
      ((after (flushSegments disk300) (after (runSegmentWrites disk300 sampleCalls) s0)).content
        init) := by
  intro s0
  obtain ⟨ofss, h1⟩ := ok_of_returnsSome (m := runSegmentWrites disk300 sampleCalls) (s := s0)
    (by decide +kernel)
  have h2 := ok_of_returnsZero (m := flushSegments disk300)
    (s := after (runSegmentWrites disk300 sampleCalls) s0) (by decide +kernel)
  have hlow : (objects (after (runSegmentWrites disk300 sampleCalls) s0).trace).all
      (fun o => o.segno * disk300.segsize < 2 ^ 32) = true := by decide +kernel
  exact ⟨ofss, (pointers_right_iff disk300 sampleCalls s0 _ _ ofss (blank_zero _ _) (fun _ => rfl) h1
    h2).2 fun o ho => of_decide_eq_true (List.all_eq_true.1 hlow o ho)⟩

/-- The calls return these offsets. -/
def returnsOffsets (m : MkfsM (Option (List Nat))) (s : Sb) (ofss : List Nat) : Bool :=
  match m s with
  | .ok r _ => r = some ofss
  | .error _ _ => false

theorem ok_of_returnsOffsets {m : MkfsM (Option (List Nat))} {ofss : List Nat}
    (h : returnsOffsets m s ofss = true) : m s = .ok (some ofss) (after m s) := by
  unfold returnsOffsets at h
  unfold after
  cases hm : m s with
  | ok r s' =>
    rw [hm] at h
    rw [of_decide_eq_true h]
  | error e s' => rw [hm] at h; cases h

/-- A block. -/
def oneCall : List Call := [⟨.block, 20, 0, 0, fun _ => 1⟩]

/-- With four bad segments the block is in segment 4, and the pointer says segment 0. -/
theorem pointer_truncated :
    ¬ ∀ (c : Cfg) (calls : List Call) (s0 s1 s2 : Sb) (ofss : List Nat), Blank c s0 →
      runSegmentWrites c calls s0 = .ok (some ofss) s1 → flushSegments c s1 = .ok 0 s2 →
      ∀ init, PointersRight c calls ofss (s2.content init) := by
  intro h
  have h1 : runSegmentWrites sixteenGiB oneCall (badStart 4) = .ok (some [24]) _ :=
    ok_of_returnsOffsets (by decide +kernel)
  have h2 := ok_of_returnsZero (m := flushSegments sixteenGiB)
    (s := after (runSegmentWrites sixteenGiB oneCall) (badStart 4)) (by decide +kernel)
  have hr := (h sixteenGiB oneCall _ _ _ _ (blank_zero _ _) h1 h2 eraseBuf).stored
  obtain ⟨hat, -⟩ := List.forall₂_cons.1 hr
  refine type_byte (o := ⟨0, 4, 24, .block, 20, 0, 0, fun _ => 1⟩) hat ?_
  decide +kernel

end Pointers

end Logfs.Mkfs
