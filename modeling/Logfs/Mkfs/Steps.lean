import Logfs.Mkfs.Format
import Mathlib.Logic.Relation

/-!
# What a run can do

Every run of the object store is a chain of steps: a turn of `get_segment` that
finds a bad segment, a segment taken for the journal or for an area, an object
appended, an area written out, a change of inodes that charges nothing.  A run
that fails ends with one more write, one that is cut off with a part of a step.
What holds in all runs is proved of one step at a time.
-/

namespace Logfs.Mkfs

open Relation (ReflTransGen)

/-! ## Taking a segment -/

/-- A turn of `get_segment` whose erase has failed. -/
structure BadTurn (c : Cfg) (s s' : Sb) : Prop where
  lt : s.lastseg < c.noSegs
  same : s' = { s with
    lastseg := s.lastseg + 1
    segmentEntry := Function.update s.segmentEntry s.lastseg ⟨badseg, reserved⟩
    outcomes := s'.outcomes
    blits := s'.blits
    trace := .erase s.lastseg false :: s.trace }
  content : ∃ n, n ≤ c.segsize ∧ ∀ init x, s'.content init x =
    if s.lastseg * c.segsize ≤ x ∧ x < s.lastseg * c.segsize + n then 0xff else s.content init x

/-- The turn of `get_segment` that takes a segment. -/
structure Taken (c : Cfg) (segno : Nat) (s s' : Sb) : Prop where
  segno_eq : segno = s.lastseg
  guard : (segno + 1) % 2 ^ 32 ≤ c.noSegs
  same : s' = { s with
    lastseg := (segno + 1) % 2 ^ 32
    outcomes := s'.outcomes
    blits := s'.blits
    trace := .got segno (s.segmentEntry segno) :: .erase segno true :: s.trace }
  content : ∀ init x, s'.content init x =
    if segno * c.segsize ≤ x ∧ x < segno * c.segsize + c.segsize then 0xff else s.content init x

/-- A turn of `get_segment` that was cut off, or that was the last one. -/
structure CutTurn (c : Cfg) (s s' : Sb) : Prop where
  same : s' = { s with
    lastseg := (s.lastseg + 1) % 2 ^ 32
    outcomes := s'.outcomes
    blits := s'.blits
    trace := s'.trace }
  trace : s'.trace = s.trace ∨ s'.trace = .erase s.lastseg false :: s.trace
  content : ∃ n, n ≤ c.segsize ∧ ∀ init x, s'.content init x =
    if s.lastseg * c.segsize ≤ x ∧ x < s.lastseg * c.segsize + n then 0xff else s.content init x

section Take

variable {c : Cfg} {s s' : Sb}

/-- `get_segment` makes bad turns and takes a segment, or is cut off after some. -/
theorem getSegmentLoop_spec (c : Cfg) : ∀ (turns : Nat) (s : Sb),
    Wp (getSegmentLoop c turns)
      (fun segno s' => ∃ s1, ReflTransGen (BadTurn c) s s1 ∧ Taken c segno s1 s')
      (fun _ s' => ∃ s1, ReflTransGen (BadTurn c) s s1 ∧ (s' = s1 ∨ CutTurn c s1 s')) s := by
  intro turns
  induction turns with
  | zero => exact fun s => ⟨s, .refl, Or.inl rfl⟩
  | succ turns ih =>
    intro s
    have hlt := c.noSegs_lt
    unfold getSegmentLoop
    rw [wp_bind, wp_get, wp_bind, wp_set, wp_ite]
    refine ⟨fun _ => ⟨s, .refl, Or.inr ⟨rfl, Or.inl rfl, 0, Nat.zero_le _, fun init x => ?_⟩⟩,
      fun hguard => ?_⟩
    · rw [if_neg (by omega)]
      rfl
    · rw [wp_bind]
      refine (devErase_spec c (s.lastseg * c.segsize) c.segsize _).mono ?_ ?_
      · rintro err s1 ⟨n, hn, hw, hret⟩
        have hsame := hw.same
        rw [wp_bind, wp_note, wp_ite]
        refine ⟨fun herr => ?_, fun herr => ?_⟩
        · have hd : decide (err = 0) = false := decide_eq_false herr
          rw [wp_bind, hd]
          have hbad (hseg : s.lastseg < c.noSegs) : BadTurn c s { s1 with
              segmentEntry := Function.update s1.segmentEntry s.lastseg ⟨badseg, reserved⟩
              trace := .erase s.lastseg false :: s1.trace } := by
            refine ⟨hseg, ?_, n, hn, hw.content⟩
            rw [hsame]
            simp only [Nat.mod_eq_of_lt (show s.lastseg + 1 < 2 ^ 32 by omega)]
          refine wp_setEntry (fun hseg => ?_) ?_
          · refine (ih _).mono ?_ ?_
            · rintro segno s2 ⟨s3, hs3, ht⟩
              exact ⟨s3, .head (hbad hseg) hs3, ht⟩
            · rintro e s2 ⟨s3, hs3, ht⟩
              exact ⟨s3, .head (hbad hseg) hs3, ht⟩
          · refine ⟨s, .refl, Or.inr ⟨?_, Or.inr ?_, n, hn, hw.content⟩⟩
            · rw [hsame]
            · rw [hsame]
        · have herr : err = 0 := not_not.1 herr
          subst herr
          obtain rfl := hret rfl
          rw [wp_bind, wp_note, wp_pure]
          refine ⟨s, .refl, rfl, by omega, ?_, hw.content⟩
          rw [hsame]
          rfl
      · rintro e s1 ⟨n, hn, hw⟩
        exact ⟨s, .refl, Or.inr ⟨by rw [hw.same], Or.inl (by rw [hw.same]), n, hn, hw.content⟩⟩

theorem getSegment_spec (c : Cfg) (s : Sb) :
    Wp (getSegment c)
      (fun segno s' => ∃ s1, ReflTransGen (BadTurn c) s s1 ∧ Taken c segno s1 s')
      (fun _ s' => ∃ s1, ReflTransGen (BadTurn c) s s1 ∧ (s' = s1 ∨ CutTurn c s1 s')) s := by
  unfold getSegment
  rw [wp_bind, wp_get]
  exact getSegmentLoop_spec c _ s

end Take

/-! ## The history -/

/-- An area is open from `__init_area` until `finish_area` sets the entry of its segment. -/
def isOpen (l : Nat) : List Event → Bool
  | [] => false
  | .opened l' _ :: tr => if l' = l then true else isOpen l tr
  | .closed l' _ _ _ :: tr => if l' = l then false else isOpen l tr
  | _ :: tr => isOpen l tr

/-- The objects appended, newest first. -/
def objects : List Event → List Obj
  | [] => []
  | .append o :: tr => o :: objects tr
  | _ :: tr => objects tr

/-! ## The steps -/

/-- An area after `__init_area`. -/
def openedArea (c : Cfg) (level segno : Nat) : Area :=
  ⟨segno, segmentHeadersize, some (poke (fun _ => 0xff) 0 (areaHeader c level segno))⟩

/-- The bytes an object takes in its segment. -/
def Obj.size (o : Obj) : Nat := objectHeadersize + objLen o.type

/-- The inodes after `grow_inode`. -/
def growTree (inodes : OrdMap Nat Inode) (ino len : Nat) : OrdMap Nat Inode :=
  let i := (inodes.get ino).getD .zero
  inodes.insert ino { i with di := { i.di with usedBytes := (len + i.di.usedBytes) % 2 ^ 64 } }

/-- The two calls of `copybuf`. -/
def copyObj (c : Cfg) (o : Obj) (a : Area) : Area :=
  let bytes := peek o.data 0 (objLen o.type)
  copybuf (copybuf a (objectHeader c.crc32 o.type o.ino o.bix bytes)) bytes

/-- The state after an object has been appended. -/
def appendTo (c : Cfg) (o : Obj) (s : Sb) : Sb := { s with
  area := Function.update s.area o.area (copyObj c o (s.area o.area))
  inoTree := growTree s.inoTree o.ino o.size
  usedBytes := (s.usedBytes + o.size) % 2 ^ 64
  trace := .append o :: s.trace }

/-- The place of the object is the end of its area, which has room for a block. -/
structure Placed (c : Cfg) (s : Sb) (o : Obj) : Prop where
  area_eq : o.area = areaOf o.ino o.level
  area_lt : o.area < noAreas
  segno_eq : o.segno = (s.area o.area).segno
  used_eq : o.used = (s.area o.area).usedBytes
  opened : isOpen o.area s.trace = true
  room : o.used + objectHeadersize + blocksize ≤ c.segsize

/-- The write of `finish_area`. -/
def areaWrite (c : Cfg) (l : Nat) (a : Area) (buf : Buf) : DevWrite :=
  ⟨.area l a.segno, a.segno * c.segsize, c.segsize, buf⟩

/-- The entry `finish_area` sets. -/
def areaEntry (l : Nat) (a : Area) : SegEntry :=
  ⟨ecLevel 1 l, (a.usedBytes - segmentHeadersize) % 2 ^ 32⟩

/-- The buffer of an open area is about to be written. -/
structure Writes (l : Nat) (buf : Buf) (s : Sb) : Prop where
  lt : l < noAreas
  opened : isOpen l s.trace = true
  buf_eq : (s.area l).buf = some buf

/-- What one step of the object store does; a segment in the segment table, where it is about one.

An area can also take a segment behind the table, when the counter wraps; `Overrun` is that. -/
inductive Step (c : Cfg) (s : Sb) : Sb → Prop where
  | create {ino : Nat} (h : s.inoTree.get ino = none) :
    Step c s { s with inoTree := s.inoTree.insert ino .zero }
  | modify {ino : Nat} {i i' : Inode} (h : s.inoTree.get ino = some i)
    (hused : i'.di.usedBytes = i.di.usedBytes) :
    Step c s { s with inoTree := s.inoTree.insert ino i' }
  | bad {s' : Sb} (h : BadTurn c s s') : Step c s s'
  | reserve {segno : Nat} {s1 : Sb} (journal : Nat → Nat) (h : Taken c segno s s1)
    (hseg : segno < c.noSegs) (hj : ∃ i, journal = Function.update s1.journalSeg i segno) :
    Step c s { s1 with
      journalSeg := journal
      segmentEntry := Function.update s1.segmentEntry segno ⟨ecLevel 1 0, reserved⟩ }
  | fresh {l segno : Nat} {s1 : Sb} (hl : l < noAreas) (hclosed : isOpen l s.trace = false)
    (h : Taken c segno s s1) (hseg : segno < c.noSegs) :
    Step c s { s1 with
      area := Function.update s1.area l (openedArea c l segno)
      trace := .opened l segno :: s1.trace }
  | append {o : Obj} (h : Placed c s o) : Step c s (appendTo c o s)
  | close {l : Nat} {buf : Buf} {s1 : Sb} (hw : Writes l buf s)
    (hseg : (s.area l).segno < c.noSegs)
    (h : Did [.done (areaWrite c l (s.area l) buf) true, .issue (areaWrite c l (s.area l) buf)]
      ((s.area l).segno * c.segsize) c.segsize buf s s1) :
    Step c s { s1 with
      segmentEntry := Function.update s1.segmentEntry (s.area l).segno (areaEntry l (s.area l))
      trace := .closed l (s.area l).segno (s.segmentEntry (s.area l).segno)
        (areaEntry l (s.area l)) :: s1.trace }

/-- An area takes the segment behind the last one. -/
inductive Overrun (c : Cfg) (s : Sb) : Sb → Prop where
  | mk {l segno : Nat} {s1 : Sb} (hl : l < noAreas) (hclosed : isOpen l s.trace = false)
    (h : Taken c segno s s1) (hseg : c.noSegs ≤ segno) :
    Overrun c s { s1 with
      area := Function.update s1.area l (openedArea c l segno)
      trace := .opened l segno :: s1.trace }

/-- A run in which nothing has failed. -/
def Calm (c : Cfg) : Sb → Sb → Prop := ReflTransGen fun s s' => Step c s s' ∨ Overrun c s s'

/-- The write of an area has failed. -/
inductive FailedWrite (c : Cfg) (s : Sb) : Sb → Prop where
  | mk {l n : Nat} {buf : Buf} {s' : Sb} (hw : Writes l buf s) (hn : n ≤ c.segsize)
    (h : Did [.done (areaWrite c l (s.area l) buf) false, .issue (areaWrite c l (s.area l) buf)]
      ((s.area l).segno * c.segsize) n buf s s') : FailedWrite c s s'

/-- How a run can stop in the middle of a step. -/
inductive Halt (c : Cfg) (s : Sb) : Sb → Prop where
  | here : Halt c s s
  | turn {s' : Sb} (h : CutTurn c s s') : Halt c s s'
  | taken {segno : Nat} {s1 : Sb} (journal : Nat → Nat) (h : Taken c segno s s1) :
    Halt c s { s1 with journalSeg := journal }
  | cut {l n : Nat} {buf : Buf} {s' : Sb} (hw : Writes l buf s) (hn : n ≤ c.segsize)
    (h : Did [.issue (areaWrite c l (s.area l) buf)]
      ((s.area l).segno * c.segsize) n buf s s') : Halt c s s'
  | wrote {l : Nat} {buf : Buf} {s' : Sb} (hw : Writes l buf s)
    (h : Did [.done (areaWrite c l (s.area l) buf) true, .issue (areaWrite c l (s.area l) buf)]
      ((s.area l).segno * c.segsize) c.segsize buf s s') : Halt c s s'

/-- A run that has ended with a write that failed. -/
def Failed (c : Cfg) (s s' : Sb) : Prop := ∃ s1, Calm c s s1 ∧ FailedWrite c s1 s'

/-- A run that has been stopped. -/
def Halted (c : Cfg) (s s' : Sb) : Prop := ∃ s1, Calm c s s1 ∧ Halt c s1 s'

/-- The areas that have a buffer are those that are open. -/
def Ready (s : Sb) : Prop := ∀ l, isOpen l s.trace = (s.area l).buf.isSome

end Logfs.Mkfs
