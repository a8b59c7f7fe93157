import Logfs.Lib.Sums
import Logfs.Mkfs.Areas

/-!
# Space accounting

`sb->used_bytes`, the `di_used_bytes` of the inodes and the counts of valid bytes
of the segments are three tallies of the same objects.
-/

namespace Logfs.Mkfs

open Relation (ReflTransGen)
open Finset (range)

/-! ## The tallies -/

/-- The sum of `di_used_bytes` over the inodes. -/
def inodeUsed (s : Sb) : Nat := (s.inoTree.entries.map fun e => e.2.di.usedBytes).sum

/-- The sum of the counts `finish_area` has recorded. -/
def closedValid : List Event → Nat
  | [] => 0
  | .closed _ _ _ new :: tr => new.valid + closedValid tr
  | _ :: tr => closedValid tr

/-- The sum of `f` over the open areas. -/
def openSum (s : Sb) (f : Area → Nat) : Nat :=
  ∑ l ∈ range noAreas, if isOpen l s.trace then f (s.area l) else 0

/-- The bytes in the open areas behind the segment headers. -/
def openUsed (s : Sb) : Nat := openSum s fun a => a.usedBytes - segmentHeadersize

/-- The objects of an inode. -/
def inodeObjs (ino : Nat) (tr : List Event) : List Obj := (objects tr).filter (·.ino = ino)

/-! ## The charges for objects -/

/-- Every object has been charged to the file system and to its inode. -/
structure Charged (s : Sb) : Prop where
  used : s.usedBytes = sizes (objects s.trace) % 2 ^ 64
  inodes : ∀ ino, (inodeAt s ino).di.usedBytes = sizes (inodeObjs ino s.trace) % 2 ^ 64
  present : ∀ o ∈ objects s.trace, (s.inoTree.get o.ino).isSome

section Charges

variable {c : Cfg} {s s1 s' : Sb} {segno : Nat}

theorem Charged.congr (hc : Charged s) (hused : s'.usedBytes = s.usedBytes)
    (hobj : objects s'.trace = objects s.trace)
    (hino : ∀ ino, (inodeAt s' ino).di.usedBytes = (inodeAt s ino).di.usedBytes)
    (hpres : ∀ ino, (s.inoTree.get ino).isSome → (s'.inoTree.get ino).isSome) : Charged s' where
  used := by rw [hused, hobj, hc.used]
  inodes ino := by
    rw [hino, inodeObjs, hobj]
    exact hc.inodes ino
  present o ho := hpres _ (hc.present o (hobj ▸ ho))

theorem Charged.append {o : Obj} (hc : Charged s) : Charged (appendTo c o s) := by
  have hat : inodeAt (appendTo c o s) =
      Function.update (inodeAt s) o.ino ((inodeAt s o.ino).grow o.size) := inodeAt_insert _ rfl
  refine ⟨?_, fun ino => ?_, fun o' ho' => ?_⟩
  · show (s.usedBytes + o.size) % 2 ^ 64 = sizes (o :: objects s.trace) % 2 ^ 64
    rw [hc.used, Nat.mod_add_mod, sizes_cons, Nat.add_comm]
  · rw [hat]
    have hobjs : inodeObjs ino (appendTo c o s).trace =
        if o.ino = ino then o :: inodeObjs ino s.trace else inodeObjs ino s.trace := by
      simp only [inodeObjs, appendTo, objects, List.filter_cons, decide_eq_true_eq]
    rw [hobjs]
    by_cases heq : o.ino = ino
    · subst heq
      rw [Function.update_self, if_pos rfl, sizes_cons, Inode.grow, hc.inodes, Nat.add_mod_mod]
    · rw [Function.update_of_ne (Ne.symm heq), if_neg heq, hc.inodes]
  · show (growTree s.inoTree o.ino o.size |>.get o'.ino).isSome
    rcases List.mem_cons.1 ho' with rfl | ho'
    · rw [growTree, OrdMap.get_insert_self]
      rfl
    · exact isSome_get_insert (hc.present o' ho')

/-- A change of an inode that is not charged for it. -/
theorem usedBytes_insert {s : Sb} {ino : Nat} {i : Inode} (h : s'.inoTree = s.inoTree.insert ino i)
    (hi : i.di.usedBytes = (inodeAt s ino).di.usedBytes) (x : Nat) :
    (inodeAt s' x).di.usedBytes = (inodeAt s x).di.usedBytes := by
  rw [inodeAt_insert _ h, Function.update_apply]
  split_ifs with hx
  · rw [hi, hx]
  · rfl

theorem Step.charged (h : Step c s s') (hc : Charged s) : Charged s' := by
  cases h with
  | @create ino h =>
    refine hc.congr rfl rfl (usedBytes_insert rfl ?_) fun _ => isSome_get_insert
    rw [inodeAt, h]
    rfl
  | @modify ino i i' h hused =>
    refine hc.congr rfl rfl (usedBytes_insert rfl ?_) fun _ => isSome_get_insert
    rw [hused, inodeAt, h]
    rfl
  | bad h =>
    rw [h.same]
    exact hc.congr rfl rfl (fun _ => rfl) fun _ => id
  | reserve _ h =>
    rw [h.same]
    exact hc.congr rfl rfl (fun _ => rfl) fun _ => id
  | fresh _ _ h =>
    rw [h.same]
    exact hc.congr rfl rfl (fun _ => rfl) fun _ => id
  | append h => exact hc.append
  | close _ _ h =>
    rw [h.same]
    exact hc.congr rfl rfl (fun _ => rfl) fun _ => id

theorem Calm.charged (h : Calm c s s') (hc : Charged s) : Charged s' := by
  induction h with
  | refl => exact hc
  | tail _ hstep ih =>
    rcases hstep with hstep | hstep
    · exact hstep.charged ih
    · cases hstep with
      | mk _ _ h =>
        rw [h.same]
        exact ih.congr rfl rfl (fun _ => rfl) fun _ => id

/-- The inodes together are charged for all objects. -/
theorem Charged.inodeUsed (hc : Charged s) :
    inodeUsed s % 2 ^ 64 = sizes (objects s.trace) % 2 ^ 64 ∧
      (sizes (objects s.trace) < 2 ^ 64 → Mkfs.inodeUsed s = sizes (objects s.trace)) := by
  have hkeys : (s.inoTree.entries.map Prod.fst).Nodup :=
    List.pairwise_map.2 (s.inoTree.sorted.imp fun h => (ne_of_lt h).symm)
  have hmem : ∀ o ∈ objects s.trace, o.ino ∈ s.inoTree.entries.map Prod.fst := by
    intro o ho
    obtain ⟨i, hi⟩ := Option.isSome_iff_exists.1 (hc.present o ho)
    exact List.mem_map.2 ⟨(o.ino, i), OrdMap.mem_entries.2 hi, rfl⟩
  have hsum := sum_by_key (w := Obj.size) _ hkeys (objects s.trace) hmem
  have hused : (s.inoTree.entries.map fun e => e.2.di.usedBytes) =
      ((s.inoTree.entries.map Prod.fst).map fun ino =>
        sizes (inodeObjs ino s.trace)).map (· % 2 ^ 64) := by
    rw [List.map_map, List.map_map]
    refine List.map_congr_left fun e he => ?_
    have hget : s.inoTree.get e.1 = some e.2 := OrdMap.mem_entries.1 he
    have := hc.inodes e.1
    rw [inodeAt, hget] at this
    exact this
  constructor
  · rw [Mkfs.inodeUsed, hused, ← List.sum_nat_mod]
    exact congrArg (· % 2 ^ 64) hsum
  · intro hlt
    rw [Mkfs.inodeUsed, hused, List.map_map]
    -- no part of a small sum is large
    refine (congrArg List.sum (List.map_congr_left fun ino _ => Nat.mod_eq_of_lt
      (lt_of_le_of_lt ?_ hlt))).trans hsum
    exact List.Sublist.sum_le_sum (List.filter_sublist.map _) fun _ _ => Nat.zero_le _

end Charges

/-! ## The counts of the segments -/

section Counts

variable {c : Cfg} {s s1 s' : Sb} {segno l : Nat} {f : Area → Nat}

theorem openSum_congr (harea : s'.area = s.area) (hopen : ∀ l, isOpen l s'.trace = isOpen l s.trace) :
    openSum s' f = openSum s f := by
  unfold openSum
  simp only [harea, hopen]

/-- Only area `l` has changed. -/
theorem openSum_update (s s' : Sb) (f : Area → Nat) (hl : l < noAreas)
    (h : ∀ l', l' ≠ l → isOpen l' s'.trace = isOpen l' s.trace ∧ s'.area l' = s.area l') :
    openSum s' f + (if isOpen l s.trace then f (s.area l) else 0) =
      openSum s f + if isOpen l s'.trace then f (s'.area l) else 0 := by
  refine sum_eq_of_update (f := fun l => if isOpen l s.trace then f (s.area l) else 0)
    (g := fun l => if isOpen l s'.trace then f (s'.area l) else 0) hl fun l' hl' => ?_
  obtain ⟨ho, ha⟩ := h l' hl'
  rw [ho, ha]

theorem openSum_fresh (hl : l < noAreas) (h : Taken c segno s s1)
    (hclosed : isOpen l s.trace = false) : openSum { s1 with
      area := Function.update s1.area l (openedArea c l segno)
      trace := .opened l segno :: s1.trace } f = openSum s f + f (openedArea c l segno) := by
  have hsame := h.sameStore
  have hsum := openSum_update s { s1 with
      area := Function.update s1.area l (openedArea c l segno)
      trace := .opened l segno :: s1.trace } f hl fun l' hl' => by
    dsimp only
    rw [isOpen, if_neg (Ne.symm hl'), hsame.isOpen, Function.update_of_ne hl', hsame.area]
    exact ⟨rfl, rfl⟩
  dsimp only at hsum
  simpa only [hclosed, isOpen, if_true, Function.update_self, Bool.false_eq_true, if_false,
    Nat.add_zero] using hsum

theorem openSum_append {o : Obj} (h : Placed c s o) : openSum (appendTo c o s) f +
    f (s.area o.area) = openSum s f + f (copyObj c o (s.area o.area)) := by
  have hsum := openSum_update s (appendTo c o s) f h.area_lt fun l' hl' =>
    ⟨rfl, Function.update_of_ne hl' _ _⟩
  have hopen : isOpen o.area (appendTo c o s).trace = true := h.opened
  have harea : (appendTo c o s).area o.area = copyObj c o (s.area o.area) :=
    Function.update_self ..
  rwa [hopen, if_pos h.opened, if_pos rfl, harea] at hsum

theorem openSum_close (s' : Sb) (f : Area → Nat) {buf : Buf} (hw : Writes l buf s)
    (harea : s'.area = s.area)
    (hopen : ∀ l', isOpen l' s'.trace = if l = l' then false else isOpen l' s.trace) :
    openSum s' f + f (s.area l) = openSum s f := by
  have hsum := openSum_update s s' f hw.lt fun l' hl' => by
    rw [hopen, if_neg (Ne.symm hl'), harea]
    exact ⟨rfl, rfl⟩
  rw [if_pos hw.opened, hopen, if_pos rfl] at hsum
  simpa using hsum

/-- The valid counts of the closed segments and the open areas add up to all objects. -/
def Tallied (s : Sb) : Prop := closedValid s.trace + openUsed s = sizes (objects s.trace)

/-- The count `finish_area` records is what the area held. -/
theorem areaEntry_valid {objs : List Obj} {a : Area} (h : AreaHolds c l objs a) :
    (areaEntry l a).valid = a.usedBytes - segmentHeadersize := by
  have hfits := h.objs.fits
  have hle := c.segsize_le
  have hused := h.used
  exact Nat.mod_eq_of_lt (by omega)

theorem Tallied.congr (ht : Tallied s) (harea : s'.area = s.area)
    (hopen : ∀ l, isOpen l s'.trace = isOpen l s.trace)
    (hobj : objects s'.trace = objects s.trace) (hval : closedValid s'.trace = closedValid s.trace) :
    Tallied s' := by
  unfold Tallied openUsed
  rw [openSum_congr harea hopen, hobj, hval]
  exact ht

theorem Tallied.fresh (ht : Tallied s) (hl : l < noAreas) (h : Taken c segno s s1)
    (hclosed : isOpen l s.trace = false) : Tallied { s1 with
      area := Function.update s1.area l (openedArea c l segno)
      trace := .opened l segno :: s1.trace } := by
  unfold Tallied openUsed
  rw [openSum_fresh hl h hclosed]
  have hobj := h.sameStore.objects
  have hval : closedValid s1.trace = closedValid s.trace := by rw [h.same]; rfl
  show closedValid s1.trace + _ = sizes (objects s1.trace)
  rw [hobj, hval]
  simpa [Tallied, openUsed, openedArea] using ht

theorem Step.tallied (h : Step c s s') (hf : Fillings c s) (ht : Tallied s) : Tallied s' := by
  cases h with
  | create => exact ht
  | modify => exact ht
  | bad h =>
    rw [h.same]
    exact ht.congr rfl (fun _ => rfl) rfl rfl
  | reserve _ h =>
    rw [h.same]
    exact ht.congr rfl (fun _ => rfl) rfl rfl
  | fresh hl hclosed h => exact ht.fresh hl h hclosed
  | @append o h =>
    have hold := hf.area o.area h.opened
    have hsum := openSum_append (f := fun a => a.usedBytes - segmentHeadersize) h
    have hused := (copyObj_segmentBytes (o := o) hold.buf hold.used).2
    have hu := hold.used
    rw [sizes_append, sizes_cons, sizes_nil] at hused
    unfold Tallied openUsed at ht ⊢
    show closedValid s.trace + openSum (appendTo c o s) _ = sizes (o :: objects s.trace)
    rw [sizes_cons]
    omega
  | @close l buf s1 hw _ h =>
    have hval := areaEntry_valid (hf.area l hw.opened)
    have hsum := openSum_close { s1 with
        segmentEntry := Function.update s1.segmentEntry (s.area l).segno (areaEntry l (s.area l))
        trace := .closed l (s.area l).segno (s.segmentEntry (s.area l).segno)
          (areaEntry l (s.area l)) :: s1.trace }
      (fun a => a.usedBytes - segmentHeadersize) hw (by rw [h.same]) fun l' => by
        rw [h.same]; rfl
    unfold Tallied openUsed at ht ⊢
    have hobj : objects s1.trace = objects s.trace := by rw [h.same]; rfl
    have hclosed : closedValid s1.trace = closedValid s.trace := by rw [h.same]; rfl
    show (areaEntry l (s.area l)).valid + closedValid s1.trace + _ = sizes (objects s1.trace)
    rw [hobj, hclosed, hval]
    omega

theorem Calm.tallied (h : Calm c s s') (hf : Fillings c s) (ht : Tallied s) : Tallied s' := by
  induction h with
  | refl => exact ht
  | tail h1 hstep ih =>
    rcases hstep with hstep | hstep
    · exact hstep.tallied (Calm.fillings h1 hf) ih
    · cases hstep with
      | mk hl hclosed h => exact ih.fresh hl h hclosed

/-! ## No overflow -/

/-- Each segment that was counted, or is still open, has been taken. -/
structure Bounded (c : Cfg) (s : Sb) : Prop where
  lastseg_le : s.lastseg ≤ c.noSegs
  room : closedValid s.trace + openSum s (fun _ => c.segsize) ≤ s.lastseg * c.segsize

theorem Bounded.next (hb : Bounded c s) (hlt : s.lastseg < c.noSegs)
    (hlast : s'.lastseg = s.lastseg + 1) (hval : closedValid s'.trace = closedValid s.trace)
    (hsum : openSum s' (fun _ => c.segsize) ≤ openSum s (fun _ => c.segsize) + c.segsize) :
    Bounded c s' where
  lastseg_le := by omega
  room := by
    have hroom := hb.room
    rw [hlast, hval, Nat.succ_mul]
    omega

theorem Bounded.same (hb : Bounded c s) (hlast : s'.lastseg = s.lastseg)
    (hroom : closedValid s'.trace + openSum s' (fun _ => c.segsize) ≤
      closedValid s.trace + openSum s fun _ => c.segsize) : Bounded c s' where
  lastseg_le := hlast ▸ hb.lastseg_le
  room := by
    rw [hlast]
    exact hroom.trans hb.room

theorem Step.bounded (h : Step c s s') (hf : Fillings c s) (hb : Bounded c s) : Bounded c s' := by
  cases h with
  | create => exact hb.same rfl (Nat.le_refl _)
  | modify => exact hb.same rfl (Nat.le_refl _)
  | bad h =>
    refine hb.next h.lt (by rw [h.same]) (by rw [h.same]; rfl) ?_
    rw [openSum_congr h.sameStore.area h.sameStore.isOpen]
    exact Nat.le_add_right _ _
  | reserve _ h hseg =>
    refine hb.next (h.segno_eq ▸ hseg) (h.lastseg hseg) ?_ ?_
    · dsimp only
      rw [h.same]
      rfl
    · refine (openSum_congr ?_ ?_).le.trans (Nat.le_add_right _ _)
      · exact h.sameStore.area
      · exact h.sameStore.isOpen
  | fresh hl hclosed h hseg =>
    refine hb.next (h.segno_eq ▸ hseg) (h.lastseg hseg) ?_ (openSum_fresh hl h hclosed).le
    dsimp only [closedValid]
    rw [h.same]
    rfl
  | append h =>
    refine hb.same rfl (Nat.add_le_add_left (le_of_eq ?_) _)
    exact Nat.add_right_cancel (openSum_append (f := fun _ => c.segsize) h)
  | @close l buf s1 hw _ h =>
    have hold := hf.area l hw.opened
    have hval := areaEntry_valid hold
    have hfits := hold.objs.fits
    have hused := hold.used
    have hsum := openSum_close { s1 with
        segmentEntry := Function.update s1.segmentEntry (s.area l).segno (areaEntry l (s.area l))
        trace := .closed l (s.area l).segno (s.segmentEntry (s.area l).segno)
          (areaEntry l (s.area l)) :: s1.trace } (fun _ => c.segsize) hw
        (by rw [h.same]) fun l' => by rw [h.same]; rfl
    have hclosed : closedValid s1.trace = closedValid s.trace := by rw [h.same]; rfl
    refine hb.same (by rw [h.same]) ?_
    simp only [closedValid]
    rw [hclosed, hval]
    omega

theorem Bounded.steps (hb : Bounded c s) (hf : Fillings c s) (h : ReflTransGen (Step c) s s') :
    Bounded c s' := by
  induction h with
  | refl => exact hb
  | tail h1 hstep ih =>
    refine hstep.bounded (Calm.fillings ?_ hf) ih
    exact ReflTransGen.mono (fun _ _ hs => Or.inl hs) _ _ h1

/-- All objects together are smaller than 64 bits can count. -/
theorem Bounded.lt (hb : Bounded c s) (hf : Fillings c s) (ht : Tallied s) :
    sizes (objects s.trace) < 2 ^ 64 := by
  have hopen : openUsed s ≤ openSum s fun _ => c.segsize := by
    unfold openUsed openSum
    refine Finset.sum_le_sum fun l _ => ?_
    split_ifs with hl
    · have hold := hf.area l hl
      have hfits := hold.objs.fits
      have hused := hold.used
      dsimp only
      omega
    · exact Nat.le_refl _
  have hle : s.lastseg * c.segsize ≤ 2 ^ 32 * 2 ^ 30 :=
    Nat.mul_le_mul (le_trans hb.lastseg_le (le_of_lt c.noSegs_lt)) c.segsize_le
  have hroom := hb.room
  unfold Tallied at ht
  omega

end Counts

end Logfs.Mkfs
