import Logfs.Mkfs.Decode

/-!
# What is on the device

A segment that was written stays as it was written: `get_segment` erases segments
behind all those that have been taken, and the areas that are open have segments
of their own.  So the objects are on the device where they were placed; the
pointers to them are right as long as they are smaller than four gigabytes.
-/

namespace Logfs.Mkfs

open Relation (ReflTransGen)

/-! ## Segments that have been written -/

/-- The write of an area to this segment, with what the area held. -/
structure Put (l segno : Nat) (p : DevWrite × List Obj) (tr : List Event) : Prop where
  mem : p ∈ written l tr
  target : p.1.target = .area l segno

/-- The byte `x` of the device belongs to segment `i`. -/
def InSegment (c : Cfg) (i x : Nat) : Prop := i * c.segsize ≤ x ∧ x < i * c.segsize + c.segsize

instance (c : Cfg) (i x : Nat) : Decidable (InSegment c i x) :=
  inferInstanceAs (Decidable (i * c.segsize ≤ x ∧ x < i * c.segsize + c.segsize))

/-- The segments written are on the device, apart from those that are open; what was not written
has at most been erased. -/
structure Image (c : Cfg) (s : Sb) : Prop where
  lt : ∀ {l segno p}, Put l segno p s.trace → segno < s.lastseg
  apart : ∀ {l segno p}, Put l segno p s.trace → ∀ l', isOpen l' s.trace = true →
    (s.area l').segno ≠ segno
  content : ∀ {l segno p}, Put l segno p s.trace → ∀ init i, i < c.segsize →
    s.content init (segno * c.segsize + i) = p.1.buf i
  erased : ∀ x, (∀ {l segno p}, Put l segno p s.trace → ¬ InSegment c segno x) →
    s.content eraseBuf x = 0xff

section Segments

variable {c : Cfg} {s s1 s' : Sb} {segno l : Nat}

/-- Segments do not overlap. -/
theorem not_inSegment {i j k : Nat} (h : i ≠ j) (hk : k < c.segsize) :
    ¬ InSegment c j (i * c.segsize + k) := by
  rintro ⟨h1, h2⟩
  rcases Nat.lt_or_gt_of_ne h with hlt | hgt
  · have : (i + 1) * c.segsize ≤ j * c.segsize := Nat.mul_le_mul_right _ hlt
    rw [Nat.add_mul, Nat.one_mul] at this
    omega
  · have : (j + 1) * c.segsize ≤ i * c.segsize := Nat.mul_le_mul_right _ hgt
    rw [Nat.add_mul, Nat.one_mul] at this
    omega

theorem inSegment_add {i k : Nat} (hk : k < c.segsize) : InSegment c i (i * c.segsize + k) :=
  ⟨Nat.le_add_right _ _, by omega⟩

/-- A part of a segment that nobody has written is erased. -/
structure ErasedAt (c : Cfg) (i : Nat) (s s' : Sb) : Prop where
  content : ∃ n, n ≤ c.segsize ∧ ∀ init x, s'.content init x =
    if i * c.segsize ≤ x ∧ x < i * c.segsize + n then 0xff else s.content init x

theorem Image.congr (hi : Image c s) (hlast : s'.lastseg = s.lastseg)
    (hwritten : ∀ l, written l s'.trace = written l s.trace)
    (hopen : ∀ l, isOpen l s'.trace = isOpen l s.trace)
    (harea : ∀ l, (s'.area l).segno = (s.area l).segno) (hblits : s'.blits = s.blits) :
    Image c s' := by
  have hput : ∀ {l segno p}, Put l segno p s'.trace ↔ Put l segno p s.trace := fun {l segno p} =>
    ⟨fun h => ⟨hwritten l ▸ h.mem, h.target⟩, fun h => ⟨hwritten l ▸ h.mem, h.target⟩⟩
  have hcontent : s'.content = s.content := by
    unfold Sb.content
    rw [hblits]
  refine ⟨fun h => ?_, fun h l' hl' => ?_, fun h => ?_, fun x hx => ?_⟩
  · rw [hlast]
    exact hi.lt (hput.1 h)
  · rw [harea]
    exact hi.apart (hput.1 h) l' (hopen l' ▸ hl')
  · rw [hcontent]
    exact hi.content (hput.1 h)
  · rw [hcontent]
    exact hi.erased x fun h => hx (hput.2 h)

/-- `get_segment` tries a segment; the area that opens there, if one does, has a new segment. -/
theorem Image.tried (hi : Image c s) (hlast : s'.lastseg = s.lastseg + 1)
    (hwritten : ∀ l, written l s'.trace = written l s.trace)
    (hopen : ∀ l, isOpen l s'.trace = true → (s'.area l).segno = s.lastseg ∨
      isOpen l s.trace = true ∧ (s'.area l).segno = (s.area l).segno)
    (herased : ErasedAt c s.lastseg s s') : Image c s' := by
  have hput : ∀ {l segno p}, Put l segno p s'.trace ↔ Put l segno p s.trace := fun {l segno p} =>
    ⟨fun h => ⟨hwritten l ▸ h.mem, h.target⟩, fun h => ⟨hwritten l ▸ h.mem, h.target⟩⟩
  obtain ⟨n, hn, hcontent⟩ := herased.content
  refine ⟨fun h => ?_, fun h l' hl' => ?_, fun {l segno p} h init i hlt => ?_, fun x hx => ?_⟩
  · have := hi.lt (hput.1 h)
    omega
  · rcases hopen l' hl' with hs | ⟨ho, hs⟩
    · have := hi.lt (hput.1 h)
      omega
    · rw [hs]
      exact hi.apart (hput.1 h) l' ho
  · have hne : segno ≠ s.lastseg := by
      have := hi.lt (hput.1 h)
      omega
    rw [hcontent, if_neg, hi.content (hput.1 h) init i hlt]
    rintro ⟨h1, h2⟩
    exact not_inSegment hne hlt ⟨h1, by omega⟩
  · rw [hcontent]
    split_ifs
    · rfl
    · exact hi.erased x fun h => hx (hput.2 h)

theorem Taken.erasedAt (h : Taken c segno s s1) (hblits : s'.blits = s1.blits) :
    ErasedAt c s.lastseg s s' := by
  refine ⟨c.segsize, Nat.le_refl _, fun init x => ?_⟩
  have := h.content init x
  rw [← h.segno_eq]
  unfold Sb.content at this ⊢
  rw [hblits, this]

/-- The segment of an area is written. -/
theorem Image.close {buf : Buf} (hi : Image c s) (hc : Counted c s) (hw : Writes l buf s)
    (hlast : s'.lastseg = s.lastseg) (harea : s'.area = s.area)
    (hopen : ∀ l', isOpen l' s'.trace = if l = l' then false else isOpen l' s.trace)
    (hwritten : ∀ l', written l' s'.trace = if l = l' then
      written l' s.trace ++ [(areaWrite c l (s.area l) buf, filling l' s.trace)]
      else written l' s.trace)
    (hcontent : ∀ init x, s'.content init x =
      if InSegment c (s.area l).segno x then buf (x - (s.area l).segno * c.segsize)
      else s.content init x) : Image c s' := by
  -- a segment that has been written is an old one, or that of the area
  have hput : ∀ {l' segno p}, Put l' segno p s'.trace → Put l' segno p s.trace ∨
      segno = (s.area l).segno ∧ p.1.buf = buf := by
    intro l' segno p h
    have hmem := h.mem
    rw [hwritten] at hmem
    split_ifs at hmem with heq
    · rcases List.mem_append.1 hmem with hmem | hmem
      · exact Or.inl ⟨hmem, h.target⟩
      · rw [List.mem_singleton] at hmem
        have ht := h.target
        rw [hmem, areaWrite, Target.area.injEq] at ht
        exact Or.inr ⟨ht.2.symm, by rw [hmem]; rfl⟩
    · exact Or.inl ⟨hmem, h.target⟩
  have hold : ∀ {l' segno p}, Put l' segno p s.trace → Put l' segno p s'.trace := by
    intro l' segno p h
    refine ⟨?_, h.target⟩
    rw [hwritten]
    split_ifs
    · exact List.mem_append_left _ h.mem
    · exact h.mem
  have hnew : Put l (s.area l).segno (areaWrite c l (s.area l) buf, filling l s.trace) s'.trace :=
    ⟨by rw [hwritten, if_pos rfl]; simp, rfl⟩
  refine ⟨fun h => ?_, fun h l' hl' => ?_, fun {l' segno p} h init i hlt => ?_, fun x hx => ?_⟩
  · rw [hlast]
    rcases hput h with h | ⟨rfl, -⟩
    · exact hi.lt h
    · exact hc.open_lt l hw.opened
  · rw [hopen] at hl'
    split_ifs at hl' with heq
    rw [harea]
    rcases hput h with h | ⟨rfl, -⟩
    · exact hi.apart h l' hl'
    · exact fun hs => heq (hc.distinct l l' hw.opened hl' hs.symm)
  · rw [hcontent]
    rcases hput h with h | ⟨rfl, hbuf⟩
    · rw [if_neg (not_inSegment (hi.apart h l hw.opened).symm hlt), hi.content h init i hlt]
    · rw [if_pos (inSegment_add hlt), Nat.add_sub_cancel_left, hbuf]
  · rw [hcontent, if_neg (hx hnew)]
    exact hi.erased x fun h => hx (hold h)

theorem Step.image (h : Step c s s') (hc : Counted c s) (hi : Image c s) : Image c s' := by
  cases h with
  | create => exact hi.congr rfl (fun _ => rfl) (fun _ => rfl) (fun _ => rfl) rfl
  | modify => exact hi.congr rfl (fun _ => rfl) (fun _ => rfl) (fun _ => rfl) rfl
  | bad h =>
    refine hi.tried (by rw [h.same]) h.sameAreas.written (fun l hl => Or.inr ?_) ⟨h.content⟩
    rw [h.sameAreas.isOpen] at hl
    exact ⟨hl, by rw [h.sameAreas.area]⟩
  | reserve _ h hseg =>
    refine hi.tried (h.lastseg hseg) h.sameAreas.written (fun l hl => Or.inr ?_) (h.erasedAt rfl)
    have hl := (h.sameAreas.isOpen l).symm.trans hl
    refine ⟨hl, ?_⟩
    dsimp only
    rw [h.sameAreas.area]
  | @fresh l segno s1 _ _ h hseg =>
    refine hi.tried (h.lastseg hseg) h.sameAreas.written (fun l' hl' => ?_) (h.erasedAt rfl)
    dsimp only [isOpen] at hl' ⊢
    by_cases heq : l = l'
    · subst heq
      rw [Function.update_self, openedArea]
      exact Or.inl h.segno_eq
    · rw [if_neg heq, h.sameAreas.isOpen] at hl'
      rw [Function.update_of_ne (Ne.symm heq), h.sameAreas.area]
      exact Or.inr ⟨hl', rfl⟩
  | append h =>
    refine hi.congr rfl (fun _ => rfl) (fun _ => rfl) (fun l => ?_) rfl
    unfold appendTo
    dsimp only
    rw [Function.update_apply]
    split_ifs with hl
    · rw [hl]
      rfl
    · rfl
  | close hw _ h =>
    refine hi.close hc hw (by rw [h.same]) (by rw [h.same]) (fun l' => ?_) (fun l' => ?_) ?_
    · rw [h.same]
      rfl
    · rw [h.same]
      simp only [List.cons_append, List.nil_append, written, DevWrite.isArea, areaWrite,
        decide_eq_true_eq, filling]
    · intro init x
      exact h.content init x

theorem Image.steps (hi : Image c s) (hc : Counted c s) (hf : Fillings c s)
    (h : ReflTransGen (Step c) s s') : Image c s' := by
  induction h with
  | refl => exact hi
  | tail h1 hstep ih => exact hstep.image (hc.steps hf h1) ih

end Segments

end Logfs.Mkfs
