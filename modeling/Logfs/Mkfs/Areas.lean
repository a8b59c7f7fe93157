import Logfs.Mkfs.Table

/-!
# What the areas hold

The buffer of an open area is the segment header, the objects appended since the
area was opened, one behind the other, and then 0xff.  What was written to the
device before were such buffers, and no object is missing from them.
-/

namespace Logfs.Mkfs

open Relation (ReflTransGen)

/-! ## Objects in the history -/

/-- The objects appended to an area since it was opened last, oldest first. -/
def filling (l : Nat) : List Event → List Obj
  | [] => []
  | .opened l' _ :: tr => if l' = l then [] else filling l tr
  | .append o :: tr => if o.area = l then filling l tr ++ [o] else filling l tr
  | _ :: tr => filling l tr

/-- The write is one of this area. -/
def DevWrite.isArea (l : Nat) (w : DevWrite) : Bool :=
  match w.target with
  | .area l' _ => l' = l
  | _ => false

/-- The writes of an area that have succeeded, oldest first, with the objects it then held. -/
def written (l : Nat) : List Event → List (DevWrite × List Obj)
  | [] => []
  | .done w true :: tr => if w.isArea l then written l tr ++ [(w, filling l tr)] else written l tr
  | _ :: tr => written l tr

/-- The objects of an area, oldest first. -/
def objectsOf (l : Nat) (tr : List Event) : List Obj := (objects tr).reverse.filter (·.area = l)

/-- The bytes these objects take. -/
def sizes (objs : List Obj) : Nat := (objs.map Obj.size).sum

/-! ## Segments with objects -/

/-- A segment of an area with these objects, as it is in memory and on the device. -/
def segmentBytes (c : Cfg) (l segno : Nat) (objs : List Obj) : Buf :=
  padded 0xff (areaHeader c l segno ++ objs.flatMap (Obj.bytes c))

/-- The objects lie one behind the other from `ofs` on. -/
def Chained (ofs : Nat) : List Obj → Prop
  | [] => True
  | o :: objs => o.used = ofs ∧ Chained (ofs + o.size) objs

/-- These objects can be the ones in segment `segno` of the area. -/
structure SegmentObjs (c : Cfg) (l segno : Nat) (objs : List Obj) : Prop where
  chained : Chained segmentHeadersize objs
  fits : segmentHeadersize + sizes objs ≤ c.segsize
  place : ∀ o ∈ objs, o.area = l ∧ o.segno = segno ∧ areaOf o.ino o.level = l

section Objects

variable {c : Cfg} {l segno ofs : Nat} {objs : List Obj} {o : Obj}

theorem Obj.bytes_length (c : Cfg) (o : Obj) : (o.bytes c).length = o.size := by
  simp [Obj.bytes, Obj.size]

theorem flatMap_bytes_length (c : Cfg) (objs : List Obj) :
    (objs.flatMap (Obj.bytes c)).length = sizes objs := by
  simp [List.length_flatMap, sizes, Obj.bytes_length]

@[simp] theorem sizes_nil : sizes [] = 0 := rfl

@[simp] theorem sizes_cons : sizes (o :: objs) = o.size + sizes objs := by
  simp [sizes]

@[simp] theorem sizes_append {objs' : List Obj} : sizes (objs ++ objs') = sizes objs + sizes objs' := by
  simp [sizes]

theorem chained_concat :
    Chained ofs (objs ++ [o]) ↔ Chained ofs objs ∧ o.used = ofs + sizes objs := by
  induction objs generalizing ofs with
  | nil => simp [Chained]
  | cons o' objs ih =>
    rw [List.cons_append, Chained, Chained, ih, sizes_cons, and_assoc, Nat.add_assoc]

@[simp] theorem areaHeader_length (c : Cfg) (l segno : Nat) :
    (areaHeader c l segno).length = segmentHeadersize := by
  simp [areaHeader]

/-- `copybuf` twice puts an object behind the others. -/
theorem copyObj_segmentBytes {a : Area} (hbuf : a.buf = some (segmentBytes c l segno objs))
    (hused : a.usedBytes = segmentHeadersize + sizes objs) :
    (copyObj c o a).buf = some (segmentBytes c l segno (objs ++ [o])) ∧
      (copyObj c o a).usedBytes = segmentHeadersize + sizes (objs ++ [o]) := by
  have hlen : (areaHeader c l segno ++ objs.flatMap (Obj.bytes c)).length = a.usedBytes := by
    rw [List.length_append, areaHeader_length, flatMap_bytes_length, hused]
  constructor
  · simp only [copyObj, copybuf, hbuf, Option.map_some, segmentBytes]
    rw [← hlen, poke_padded, ← List.length_append, poke_padded]
    simp [Obj.bytes]
  · simp only [copyObj, copybuf, hused, sizes_append, sizes_cons, sizes_nil, objectHeader_length,
      peek_length, Obj.size]
    omega

/-- An object lies behind those before it. -/
theorem chained_used {A B : List Obj} (h : Chained ofs (A ++ o :: B)) : o.used = ofs + sizes A := by
  induction A generalizing ofs with
  | nil => exact h.1
  | cons a A ih =>
    have := ih h.2
    rw [sizes_cons]
    omega

/-- The objects of a segment are where they were placed. -/
theorem SegmentObjs.at (h : SegmentObjs c l segno objs) (ho : o ∈ objs) :
    At (segmentBytes c l segno objs) o.used (o.bytes c) := by
  obtain ⟨A, B, rfl⟩ := List.append_of_mem ho
  have hused : (areaHeader c l segno ++ A.flatMap (Obj.bytes c)).length = o.used := by
    rw [chained_used h.chained, List.length_append, areaHeader_length, flatMap_bytes_length]
  have hsplit : areaHeader c l segno ++ (A ++ o :: B).flatMap (Obj.bytes c) =
      areaHeader c l segno ++ A.flatMap (Obj.bytes c) ++ o.bytes c ++ B.flatMap (Obj.bytes c) := by
    rw [List.flatMap_append, List.flatMap_cons, List.append_assoc, List.append_assoc]
  unfold At segmentBytes
  rw [hsplit, ← hused]
  exact peek_padded ..

/-- A write of an area that has succeeded is one of the history. -/
theorem done_of_written {tr : List Event} {p : DevWrite × List Obj} (h : p ∈ written l tr) :
    .done p.1 true ∈ tr := by
  induction tr with
  | nil => cases h
  | cons e tr ih =>
    cases e with
    | done w ok =>
      cases ok with
      | false => exact List.mem_cons_of_mem _ (ih h)
      | true =>
        rw [written] at h
        split_ifs at h with hw
        · rcases List.mem_append.1 h with h | h
          · exact List.mem_cons_of_mem _ (ih h)
          · rw [List.mem_singleton.1 h]
            exact List.mem_cons_self
        · exact List.mem_cons_of_mem _ (ih h)
    | _ => exact List.mem_cons_of_mem _ (ih h)

end Objects

/-! ## The invariant -/

/-- An area that holds the objects appended since it was opened. -/
structure AreaHolds (c : Cfg) (l : Nat) (objs : List Obj) (a : Area) : Prop where
  buf : a.buf = some (segmentBytes c l a.segno objs)
  used : a.usedBytes = segmentHeadersize + sizes objs
  objs : SegmentObjs c l a.segno objs

/-- A write of an area that holds these objects. -/
def WriteHolds (c : Cfg) (l : Nat) (p : DevWrite × List Obj) : Prop :=
  ∃ segno, p.1 = ⟨.area l segno, segno * c.segsize, c.segsize, segmentBytes c l segno p.2⟩ ∧
    SegmentObjs c l segno p.2

/-- The areas hold, and were written with, the objects appended to them. -/
structure Fillings (c : Cfg) (s : Sb) : Prop where
  area : ∀ l, isOpen l s.trace = true → AreaHolds c l (filling l s.trace) (s.area l)
  writes : ∀ l, ∀ p ∈ written l s.trace, WriteHolds c l p
  all : ∀ l, objectsOf l s.trace = (written l s.trace).flatMap Prod.snd ++
    if isOpen l s.trace then filling l s.trace else []

/-- Without open areas every object has been written. -/
theorem Fillings.mem_written {c : Cfg} {s : Sb} (hf : Fillings c s)
    (hclosed : ∀ l, isOpen l s.trace = false) {o : Obj} (ho : o ∈ objects s.trace) :
    ∃ p ∈ written o.area s.trace, o ∈ p.2 := by
  have hmem : o ∈ objectsOf o.area s.trace :=
    List.mem_filter.2 ⟨List.mem_reverse.2 ho, decide_eq_true rfl⟩
  rw [hf.all, hclosed, if_neg (by decide), List.append_nil] at hmem
  exact List.mem_flatMap.1 hmem

/-- What was written are objects of the history. -/
theorem Fillings.mem_objects {c : Cfg} {s : Sb} (hf : Fillings c s) {l : Nat}
    {p : DevWrite × List Obj} (hp : p ∈ written l s.trace) {o : Obj} (ho : o ∈ p.2) :
    o ∈ objects s.trace := by
  have hmem : o ∈ objectsOf l s.trace := by
    rw [hf.all]
    exact List.mem_append_left _ (List.mem_flatMap.2 ⟨p, hp, ho⟩)
  exact List.mem_reverse.1 (List.mem_of_mem_filter hmem)

section Steps

variable {c : Cfg} {s s1 s' : Sb} {segno : Nat}

/-- Nothing has happened to areas and objects. -/
structure SameAreas (s s' : Sb) : Prop where
  area : s'.area = s.area
  isOpen : ∀ l, isOpen l s'.trace = isOpen l s.trace
  objects : objects s'.trace = objects s.trace
  filling : ∀ l, filling l s'.trace = filling l s.trace
  written : ∀ l, written l s'.trace = written l s.trace

theorem Fillings.congr (hf : Fillings c s) (h : SameAreas s s') : Fillings c s' where
  area l hl := by
    rw [h.area, h.filling]
    exact hf.area l (h.isOpen l ▸ hl)
  writes l := by
    rw [h.written]
    exact hf.writes l
  all l := by
    rw [objectsOf, h.objects, h.written, h.isOpen, h.filling]
    exact hf.all l

theorem BadTurn.sameAreas (h : BadTurn c s s') : SameAreas s s' := by
  rw [h.same]
  exact ⟨rfl, fun _ => rfl, rfl, fun _ => rfl, fun _ => rfl⟩

theorem Taken.sameAreas (h : Taken c segno s s') : SameAreas s s' := by
  rw [h.same]
  exact ⟨rfl, fun _ => rfl, rfl, fun _ => rfl, fun _ => rfl⟩

/-- An area that opens holds nothing. -/
theorem Fillings.fresh {l : Nat} (hf : Fillings c s) (h : Taken c segno s s1)
    (hclosed : isOpen l s.trace = false) : Fillings c { s1 with
      area := Function.update s1.area l (openedArea c l segno)
      trace := .opened l segno :: s1.trace } := by
  have hsame := h.sameAreas
  have hf1 := hf.congr hsame
  refine ⟨fun l' hl' => ?_, hf1.writes, fun l' => ?_⟩
  · dsimp only [isOpen, filling] at hl' ⊢
    by_cases heq : l = l'
    · subst heq
      rw [if_pos rfl, Function.update_self]
      refine ⟨?_, rfl, trivial, ?_, by simp⟩
      · simp [openedArea, segmentBytes, poke_fill]
      · have := c.two_blocks_le
        simp only [sizes_nil, segmentHeadersize]
        omega
    · rw [if_neg heq] at hl' ⊢
      rw [Function.update_of_ne (Ne.symm heq)]
      exact hf1.area l' hl'
  · have hall := hf1.all l'
    rw [show objectsOf l' (.opened l segno :: s1.trace) = objectsOf l' s1.trace from rfl, hall]
    by_cases heq : l = l'
    · subst heq
      simp [isOpen, filling, written, hsame.isOpen, hclosed]
    · simp [isOpen, filling, written, heq]

theorem Fillings.append {o : Obj} (hf : Fillings c s) (h : Placed c s o) :
    Fillings c (appendTo c o s) := by
  have hold := hf.area o.area h.opened
  unfold appendTo
  refine ⟨fun l hl => ?_, hf.writes, fun l => ?_⟩
  · dsimp only [isOpen, filling] at hl ⊢
    by_cases heq : o.area = l
    · subst heq
      rw [if_pos rfl, Function.update_self]
      obtain ⟨hbuf, hused⟩ := copyObj_segmentBytes (o := o) hold.buf hold.used
      refine ⟨hbuf, hused, chained_concat.2 ⟨hold.objs.chained, ?_⟩, ?_, ?_⟩
      · rw [h.used_eq, hold.used]
      · have hroom := h.room
        have hlen := objLen_le o.type
        rw [h.used_eq, hold.used] at hroom
        rw [sizes_append, sizes_cons, sizes_nil, Obj.size]
        omega
      · intro o' ho'
        rcases List.mem_append.1 ho' with ho' | ho'
        · exact hold.objs.place o' ho'
        · rw [List.mem_singleton.1 ho']
          exact ⟨rfl, h.segno_eq, h.area_eq.symm⟩
    · rw [if_neg heq, Function.update_of_ne (Ne.symm heq)]
      exact hf.area l hl
  · have hall := hf.all l
    have hobj : objectsOf l (.append o :: s.trace) =
        objectsOf l s.trace ++ if o.area = l then [o] else [] := by
      simp only [objectsOf, objects, List.reverse_cons, List.filter_append, List.filter_cons,
        List.filter_nil, decide_eq_true_eq]
    rw [hobj, hall]
    by_cases heq : o.area = l
    · subst heq
      simp [isOpen, filling, written, h.opened]
    · simp [isOpen, filling, written, heq]

/-- What an area held is what was written. -/
theorem Fillings.close {l : Nat} {buf : Buf} (hf : Fillings c s) (hw : Writes l buf s)
    (harea : s'.area = s.area) (htrace : ∃ old new, s'.trace =
      .closed l (s.area l).segno old new :: .done (areaWrite c l (s.area l) buf) true ::
        .issue (areaWrite c l (s.area l) buf) :: s.trace) : Fillings c s' := by
  obtain ⟨old, new, htrace⟩ := htrace
  have hold := hf.area l hw.opened
  have hbuf : buf = segmentBytes c l (s.area l).segno (filling l s.trace) :=
    Option.some_inj.1 (hw.buf_eq.symm.trans hold.buf)
  have hwritten : ∀ l', written l' s'.trace = if l = l' then
      written l' s.trace ++ [(areaWrite c l (s.area l) buf, filling l' s.trace)]
      else written l' s.trace := by
    intro l'
    rw [htrace]
    simp only [written, DevWrite.isArea, areaWrite, decide_eq_true_eq, filling]
  have hopen : ∀ l', isOpen l' s'.trace = if l = l' then false else isOpen l' s.trace := by
    intro l'
    rw [htrace]
    rfl
  have hfill : ∀ l', filling l' s'.trace = filling l' s.trace := fun l' => by
    rw [htrace]
    rfl
  refine ⟨fun l' hl' => ?_, fun l' p hp => ?_, fun l' => ?_⟩
  · rw [hopen] at hl'
    split_ifs at hl'
    rw [hfill, harea]
    exact hf.area l' hl'
  · rw [hwritten] at hp
    split_ifs at hp with heq
    · subst heq
      rcases List.mem_append.1 hp with hp | hp
      · exact hf.writes l p hp
      · rw [List.mem_singleton.1 hp]
        exact ⟨(s.area l).segno, by rw [areaWrite, hbuf], hold.objs⟩
    · exact hf.writes l' p hp
  · have hobj : objectsOf l' s'.trace = objectsOf l' s.trace := by
      rw [htrace]
      rfl
    rw [hobj, hf.all l', hwritten, hopen, hfill]
    by_cases heq : l = l'
    · subst heq
      simp [hw.opened]
    · simp only [if_neg heq]

theorem Step.fillings (h : Step c s s') (hf : Fillings c s) : Fillings c s' := by
  cases h with
  | create => exact hf.congr ⟨rfl, fun _ => rfl, rfl, fun _ => rfl, fun _ => rfl⟩
  | modify => exact hf.congr ⟨rfl, fun _ => rfl, rfl, fun _ => rfl, fun _ => rfl⟩
  | bad h => exact hf.congr h.sameAreas
  | reserve _ h =>
    have hs := h.sameAreas
    exact hf.congr ⟨hs.area, hs.isOpen, hs.objects, hs.filling, hs.written⟩
  | fresh _ hclosed h => exact hf.fresh h hclosed
  | append h => exact hf.append h
  | @close l buf s1 hw hseg h =>
    refine hf.close hw ?_ ⟨s.segmentEntry (s.area l).segno, areaEntry l (s.area l), ?_⟩
    · rw [h.same]
    · rw [h.same]
      rfl

theorem Overrun.fillings (h : Overrun c s s') (hf : Fillings c s) : Fillings c s' := by
  cases h with
  | mk _ hclosed h => exact hf.fresh h hclosed

/-- The areas are right in every run. -/
theorem Calm.fillings (h : Calm c s s') (hf : Fillings c s) : Fillings c s' := by
  induction h with
  | refl => exact hf
  | tail _ hstep ih => exact hstep.elim (·.fillings ih) (·.fillings ih)

end Steps

end Logfs.Mkfs
