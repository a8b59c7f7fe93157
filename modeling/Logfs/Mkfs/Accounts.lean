import Logfs.Mkfs.Segfile
import Logfs.Mkfs.Space

/-!
# What is recorded of the space

The counts in the segment table are those of the segments that were closed, so
they add up to what the dynamic superblock says.  The inodes on the medium carry
what was charged to them.
-/

namespace Logfs.Mkfs

open Relation (ReflTransGen)
open Finset (range)

/-! ## The counts in the table -/

/-- The bytes a segment entry counts: none, for superblocks, the journal and bad segments. -/
def SegEntry.counted (e : SegEntry) : Nat := if e.valid = reserved then 0 else e.valid

def SegEntry.Words (e : SegEntry) : Prop := e.ecLevel < 2 ^ 32 ∧ e.valid < 2 ^ 32

/-- The entries count what was in the segments closed. -/
structure Counted (c : Cfg) (s : Sb) : Prop where
  high : ∀ i, s.lastseg ≤ i → (s.segmentEntry i).counted = 0
  open_lt : ∀ l, isOpen l s.trace = true → (s.area l).segno < s.lastseg
  open_entry : ∀ l, isOpen l s.trace = true → (s.segmentEntry (s.area l).segno).counted = 0
  distinct : ∀ l l', isOpen l s.trace = true → isOpen l' s.trace = true →
    (s.area l).segno = (s.area l').segno → l = l'
  sum : ∑ i ∈ range c.noSegs, (s.segmentEntry i).counted = closedValid s.trace
  words : ∀ i, (s.segmentEntry i).Words

section Steps

variable {c : Cfg} {s s1 s' : Sb} {segno l : Nat}

theorem counted_zero : SegEntry.zero.counted = 0 := rfl

theorem counted_reserved : reservedEntry.counted = 0 := rfl

theorem words_reserved : reservedEntry.Words := ⟨by decide, by decide⟩

theorem words_zero : SegEntry.zero.Words := ⟨by decide, by decide⟩

theorem words_bad : badEntry.Words := ⟨by decide, by decide⟩

theorem Counted.congr (hc : Counted c s) (hlast : s'.lastseg = s.lastseg)
    (hentry : s'.segmentEntry = s.segmentEntry)
    (hopen : ∀ l, isOpen l s'.trace = isOpen l s.trace)
    (harea : ∀ l, (s'.area l).segno = (s.area l).segno)
    (hval : closedValid s'.trace = closedValid s.trace) : Counted c s' where
  high i hi := by
    rw [hentry]
    exact hc.high i (hlast ▸ hi)
  open_lt l hl := by
    rw [harea, hlast]
    exact hc.open_lt l (hopen l ▸ hl)
  open_entry l hl := by
    rw [harea, hentry]
    exact hc.open_entry l (hopen l ▸ hl)
  distinct l l' hl hl' h := by
    rw [harea, harea] at h
    exact hc.distinct l l' (hopen l ▸ hl) (hopen l' ▸ hl') h
  sum := by
    rw [hentry, hval]
    exact hc.sum
  words i := by
    rw [hentry]
    exact hc.words i

/-- A segment is tried and gets an entry that counts nothing. -/
theorem Counted.tried {e : SegEntry} (hc : Counted c s) (hseg : s.lastseg < c.noSegs)
    (he : e.counted = 0) (hw : e.Words) (hlast : s'.lastseg = s.lastseg + 1)
    (hentry : s'.segmentEntry = Function.update s.segmentEntry s.lastseg e)
    (harea : s'.area = s.area) (hopen : ∀ l, isOpen l s'.trace = isOpen l s.trace)
    (hval : closedValid s'.trace = closedValid s.trace) : Counted c s' where
  high i hi := by
    rw [hlast] at hi
    rw [hentry, Function.update_of_ne (by omega)]
    exact hc.high i (by omega)
  open_lt l hl := by
    rw [hopen] at hl
    have := hc.open_lt l hl
    rw [harea, hlast]
    omega
  open_entry l hl := by
    rw [hopen] at hl
    have := hc.open_lt l hl
    rw [harea, hentry, Function.update_of_ne (by omega)]
    exact hc.open_entry l hl
  distinct l l' hl hl' h := by
    rw [hopen] at hl hl'
    rw [harea] at h
    exact hc.distinct l l' hl hl' h
  sum := by
    have hsum := sum_eq_of_update (f := fun i => (s.segmentEntry i).counted)
      (g := fun i => (s'.segmentEntry i).counted) hseg fun i hi => by
        rw [hentry, Function.update_of_ne hi]
    rw [hentry, Function.update_self, he, hc.high _ (Nat.le_refl _), Nat.add_zero, Nat.add_zero,
      hc.sum] at hsum
    rw [hval, ← hsum, hentry]
  words i := by
    rw [hentry, Function.update_apply]
    split_ifs
    · exact hw
    · exact hc.words i

theorem Counted.fresh (hc : Counted c s) (h : Taken c segno s s1) (hseg : segno < c.noSegs)
    : Counted c { s1 with
      area := Function.update s1.area l (openedArea c l segno)
      trace := .opened l segno :: s1.trace } := by
  have hlast := h.lastseg hseg
  have hsegno := h.segno_eq
  subst hsegno
  have hentry : s1.segmentEntry = s.segmentEntry := by rw [h.same]
  have hval : closedValid s1.trace = closedValid s.trace := by rw [h.same]; rfl
  -- an area other than `l` is as before; `l` has the segment behind all the others
  have hcase : ∀ l', isOpen l' (.opened l s.lastseg :: s1.trace) = true →
      l' = l ∧ (Function.update s1.area l (openedArea c l s.lastseg) l').segno = s.lastseg ∨
      l' ≠ l ∧ isOpen l' s.trace = true ∧
        (Function.update s1.area l (openedArea c l s.lastseg) l').segno = (s.area l').segno := by
    intro l' hl'
    rw [isOpen] at hl'
    by_cases heq : l' = l
    · subst heq
      exact Or.inl ⟨rfl, by rw [Function.update_self]; rfl⟩
    · rw [if_neg (Ne.symm heq), h.sameStore.isOpen] at hl'
      exact Or.inr ⟨heq, hl', by rw [Function.update_of_ne heq, h.sameStore.area]⟩
  refine ⟨fun i hi => ?_, fun l' hl' => ?_, fun l' hl' => ?_, fun l1 l2 h1 h2 heq => ?_, ?_, ?_⟩
  · dsimp only at hi ⊢
    rw [hlast] at hi
    rw [hentry]
    exact hc.high i (by omega)
  · dsimp only
    rw [hlast]
    rcases hcase l' hl' with ⟨-, hs⟩ | ⟨-, ho, hs⟩
    · omega
    · have := hc.open_lt l' ho
      omega
  · dsimp only
    rw [hentry]
    rcases hcase l' hl' with ⟨-, hs⟩ | ⟨-, ho, hs⟩
    · rw [hs]
      exact hc.high _ (Nat.le_refl _)
    · rw [hs]
      exact hc.open_entry l' ho
  · dsimp only at heq
    rcases hcase l1 h1 with ⟨rfl, hs1⟩ | ⟨-, ho1, hs1⟩
    · rcases hcase l2 h2 with ⟨rfl, hs2⟩ | ⟨-, ho2, hs2⟩
      · rfl
      · have := hc.open_lt l2 ho2
        omega
    · rcases hcase l2 h2 with ⟨rfl, hs2⟩ | ⟨-, ho2, hs2⟩
      · have := hc.open_lt l1 ho1
        omega
      · exact hc.distinct l1 l2 ho1 ho2 (by omega)
  · dsimp only [closedValid]
    rw [hentry, hval]
    exact hc.sum
  · dsimp only
    rw [hentry]
    exact hc.words

/-- The entry of an area counts what the area held. -/
theorem counted_areaEntry {objs : List Obj} {a : Area} (h : AreaHolds c l objs a) :
    (areaEntry l a).counted = (areaEntry l a).valid ∧ (areaEntry l a).Words := by
  have hval := areaEntry_valid h
  have hfits := h.objs.fits
  have hle := c.segsize_le
  have hused := h.used
  constructor
  · unfold SegEntry.counted
    rw [if_neg]
    rw [hval, reserved]
    omega
  · refine ⟨Nat.mod_lt _ (by decide), ?_⟩
    rw [hval]
    omega

theorem Counted.close {objs : List Obj} (hc : Counted c s) (hl : isOpen l s.trace = true)
    (hold : AreaHolds c l objs (s.area l)) (hseg : (s.area l).segno < c.noSegs)
    (hlast : s'.lastseg = s.lastseg)
    (hentry : s'.segmentEntry =
      Function.update s.segmentEntry (s.area l).segno (areaEntry l (s.area l)))
    (harea : s'.area = s.area)
    (hopen : ∀ l', isOpen l' s'.trace = if l = l' then false else isOpen l' s.trace)
    (hval : closedValid s'.trace = (areaEntry l (s.area l)).valid + closedValid s.trace) :
    Counted c s' := by
  obtain ⟨hcount, hwords⟩ := counted_areaEntry hold
  have hlt := hc.open_lt l hl
  have hrest : ∀ l', isOpen l' s'.trace = true → l ≠ l' ∧ isOpen l' s.trace = true := by
    intro l' hl'
    rw [hopen] at hl'
    split_ifs at hl' with heq
    exact ⟨heq, hl'⟩
  refine ⟨fun i hi => ?_, fun l' hl' => ?_, fun l' hl' => ?_, fun l1 l2 h1 h2 heq => ?_, ?_,
    fun i => ?_⟩
  · rw [hlast] at hi
    rw [hentry, Function.update_of_ne (by omega)]
    exact hc.high i hi
  · rw [harea, hlast]
    exact hc.open_lt l' (hrest l' hl').2
  · obtain ⟨hne, ho⟩ := hrest l' hl'
    rw [harea, hentry, Function.update_of_ne fun h => hne (hc.distinct l l' hl ho h.symm)]
    exact hc.open_entry l' ho
  · rw [harea] at heq
    exact hc.distinct l1 l2 (hrest l1 h1).2 (hrest l2 h2).2 heq
  · have hsum := sum_eq_of_update (f := fun i => (s.segmentEntry i).counted)
      (g := fun i => (s'.segmentEntry i).counted) hseg fun i hi => by
        rw [hentry, Function.update_of_ne hi]
    rw [hc.open_entry l hl, hc.sum, hentry, Function.update_self, hcount] at hsum
    rw [hentry, hval]
    omega
  · rw [hentry, Function.update_apply]
    split_ifs
    · exact hwords
    · exact hc.words i

theorem Step.counted (h : Step c s s') (hf : Fillings c s) (hc : Counted c s) : Counted c s' := by
  cases h with
  | create => exact hc.congr rfl rfl (fun _ => rfl) (fun _ => rfl) rfl
  | modify => exact hc.congr rfl rfl (fun _ => rfl) (fun _ => rfl) rfl
  | bad h =>
    refine hc.tried (e := badEntry) h.lt rfl words_bad ?_ ?_ h.sameStore.area h.sameStore.isOpen ?_
    · rw [h.same]
    · rw [h.same]
      rfl
    · rw [h.same]
      rfl
  | reserve _ h hseg =>
    have hsegno := h.segno_eq
    subst hsegno
    refine hc.tried (e := reservedEntry) hseg counted_reserved words_reserved (h.lastseg hseg) ?_
      h.sameStore.area h.sameStore.isOpen ?_
    · dsimp only
      rw [h.same]
      rfl
    · dsimp only
      rw [h.same]
      rfl
  | fresh _ _ h hseg => exact hc.fresh h hseg
  | append h =>
    refine hc.congr rfl rfl (fun _ => rfl) (fun l => ?_) rfl
    unfold appendTo
    dsimp only
    rw [Function.update_apply]
    split_ifs with hl
    · rw [hl]
      rfl
    · rfl
  | @close l buf s1 hw hseg h =>
    refine hc.close hw.opened (hf.area l hw.opened) hseg ?_ ?_ ?_ (fun l' => ?_) ?_
    all_goals rw [h.same]
    all_goals rfl

theorem Counted.steps (hc : Counted c s) (hf : Fillings c s) (h : ReflTransGen (Step c) s s') :
    Counted c s' := by
  induction h with
  | refl => exact hc
  | tail h1 hstep ih =>
    refine hstep.counted (Calm.fillings ?_ hf) ih
    exact ReflTransGen.mono (fun _ _ hs => Or.inl hs) _ _ h1

end Steps

/-! ## The beginning of a run -/

/-- No entry counts anything. -/
def NoneCounted (s : Sb) : Prop := ∀ i, (s.segmentEntry i).counted = 0 ∧ (s.segmentEntry i).Words

/-- Nothing has been stored yet. -/
structure Blank (c : Cfg) (s : Sb) : Prop where
  usedBytes : s.usedBytes = 0
  inoTree : s.inoTree = .empty
  area : ∀ l, (s.area l).buf = none
  entries : NoneCounted s
  trace : ∀ e ∈ s.trace, e.isTry ∨ e = .prepared
  lastseg_le : s.lastseg ≤ c.noSegs

/-- A history in which segments were tried and nothing else. -/
structure QuietTrace (tr : List Event) : Prop where
  isOpen : ∀ l, isOpen l tr = false
  objects : objects tr = []
  written : ∀ l, written l tr = []
  closedValid : closedValid tr = 0

theorem quietTrace {tr : List Event} (h : ∀ e ∈ tr, e.isTry ∨ e = .prepared) : QuietTrace tr := by
  induction tr with
  | nil => exact ⟨fun _ => rfl, rfl, fun _ => rfl, rfl⟩
  | cons e tr ih =>
    obtain ⟨h1, h2, h3, h4⟩ := ih fun e he => h e (List.mem_cons_of_mem _ he)
    have he := h e List.mem_cons_self
    cases e with
    | erase | scan | got | prepared => exact ⟨h1, h2, h3, h4⟩
    | opened | append | issue | done | closed => simp [Event.isTry] at he

section Blank

variable {c : Cfg} {s s' : Sb} {os : List Outcome} {k k1 k2 : Nat}

theorem Blank.quiet (h : Blank c s) : QuietTrace s.trace := quietTrace h.trace

theorem Blank.ready (h : Blank c s) : Ready s := fun l => by
  rw [h.quiet.isOpen, h.area]
  rfl

theorem Blank.fillings (h : Blank c s) : Fillings c s where
  area l hl := by
    rw [h.quiet.isOpen] at hl
    cases hl
  writes l p hp := by
    rw [h.quiet.written] at hp
    cases hp
  all l := by
    rw [objectsOf, h.quiet.objects, h.quiet.written, h.quiet.isOpen]
    rfl

theorem Blank.charged (h : Blank c s) : Charged s where
  used := by
    rw [h.usedBytes, h.quiet.objects]
    rfl
  inodes ino := by
    rw [inodeAt, h.inoTree, inodeObjs, h.quiet.objects]
    rfl
  present o ho := by
    rw [h.quiet.objects] at ho
    cases ho

/-- Without open areas there is nothing in them. -/
theorem openSum_closed (hclosed : ∀ l, isOpen l s.trace = false) (f : Area → Nat) :
    openSum s f = 0 :=
  Finset.sum_eq_zero fun l _ => if_neg (by rw [hclosed]; decide)

theorem Blank.tallied (h : Blank c s) : Tallied s := by
  unfold Tallied openUsed
  rw [openSum_closed h.quiet.isOpen, h.quiet.objects, h.quiet.closedValid]
  rfl

theorem Blank.bounded (h : Blank c s) : Bounded c s where
  lastseg_le := h.lastseg_le
  room := by
    rw [openSum_closed h.quiet.isOpen, h.quiet.closedValid]
    exact Nat.zero_le _

theorem Blank.counted (h : Blank c s) : Counted c s := by
  have hopen : ∀ l, isOpen l s.trace ≠ true := fun l hl => by
    rw [h.quiet.isOpen] at hl
    cases hl
  refine ⟨fun i _ => (h.entries i).1, fun l hl => absurd hl (hopen l), fun l _ => (h.entries _).1,
    fun l l' hl => absurd hl (hopen l), ?_, fun i => (h.entries i).2⟩
  rw [h.quiet.closedValid]
  exact Finset.sum_eq_zero fun i _ => (h.entries i).1

theorem First.sameStore (h : First c k s s') : s'.usedBytes = s.usedBytes ∧
    s'.inoTree = s.inoTree := by
  obtain ⟨s1, s2, hbad, ht, rfl⟩ := h.chain
  have hsame := (SameStore.of_badTurns hbad).trans ht.sameStore
  exact ⟨hsame.usedBytes, hsame.inoTree⟩

theorem NoneCounted.update {e : SegEntry} {i : Nat} (h : NoneCounted s) (he : e.counted = 0)
    (hw : e.Words) (hs : s'.segmentEntry = Function.update s.segmentEntry i e) : NoneCounted s' := by
  intro j
  rw [hs, Function.update_apply]
  split_ifs
  · exact ⟨he, hw⟩
  · exact h j

theorem NoneCounted.badTurns (h : NoneCounted s) (hb : ReflTransGen (BadTurn c) s s') :
    NoneCounted s' := by
  induction hb with
  | refl => exact h
  | @tail b s' _ hb ih =>
    refine ih.update (e := badEntry) (i := b.lastseg) rfl words_bad ?_
    rw [hb.same]
    rfl

theorem First.noneCounted (h : First c k s s') (hn : NoneCounted s) : NoneCounted s' := by
  obtain ⟨s1, s2, hbad, ht, rfl⟩ := h.chain
  refine (hn.badTurns hbad).update counted_reserved words_reserved (i := k) ?_
  dsimp only
  rw [ht.same]

theorem noneCounted_zero (os : List Outcome) : NoneCounted (Sb.zero os) := fun _ => ⟨rfl, words_zero⟩

theorem blank_zero (c : Cfg) (os : List Outcome) : Blank c (Sb.zero os) where
  usedBytes := rfl
  inoTree := rfl
  area _ := rfl
  entries := noneCounted_zero os
  trace _ he := by cases he
  lastseg_le := Nat.zero_le _

theorem Prepared.blank (h : Prepared c k1 k2 (Sb.zero os) s') : Blank c s' := by
  have htable := h.table.1
  have harea := h.area
  obtain ⟨s1, s2, h1, h2, rfl⟩ := h.steps
  have hkeep : s2.usedBytes = s1.usedBytes ∧ s2.inoTree = s1.inoTree ∧
      s2.segmentEntry = Function.update s1.segmentEntry k2 reservedEntry := by
    cases h2 with
    | bdev _ _ _ h => rw [h]; exact ⟨rfl, rfl, rfl⟩
    | mtd _ h =>
      obtain ⟨fails, -, hs2⟩ := h.same
      rw [hs2]
      exact ⟨rfl, rfl, rfl⟩
  obtain ⟨new, htrace, htry⟩ := h1.onlyTries.trans h2.onlyTries
  refine ⟨hkeep.1.trans h1.sameStore.1, hkeep.2.1.trans h1.sameStore.2, fun l => ?_, ?_,
    fun e he => ?_, htable.lastseg_le⟩
  · rw [harea]
    rfl
  · exact (h1.noneCounted (noneCounted_zero os)).update counted_reserved words_reserved hkeep.2.2
  · rcases List.mem_cons.1 he with rfl | he
    · exact Or.inr rfl
    · rw [htrace, Sb.zero, List.append_nil] at he
      exact Or.inl (htry e he)

end Blank

/-! ## Sequences of file operations -/

/-- A call of `logfs_file_write` or of `logfs_file_flush`. -/
inductive FileOp where
  | write (ino bix level : Nat) (type : ObjType) (buf : Buf)
  | flush (ino : Nat)

def FileOp.run (c : Cfg) : FileOp → MkfsM Int
  | .write ino bix level type buf => logfsFileWrite c ino bix level type buf
  | .flush ino => logfsFileFlush c ino

/-- The calls one after the other, up to the first that returns an error. -/
def runFileOps (c : Cfg) : List FileOp → MkfsM Int
  | [] => pure 0
  | op :: ops => do
    let err ← op.run c
    if err ≠ 0 then pure err else runFileOps c ops

section FileOps

variable {c : Cfg} {s : Sb}

theorem FileOp.run_spec (op : FileOp) (hready : Ready s) :
    Wp (op.run c) (fun r s' => (r = 0 ∧ Calm c s s' ∧ Ready s') ∨ r = - EIO ∧ Failed c s s')
      (fun _ s' => Halted c s s') s := by
  cases op with
  | write =>
    refine (logfsFileWrite_spec hready).imp ?_
    rintro r s1 (⟨hr, o, -, h1, -⟩ | hf)
    · exact Or.inl ⟨hr, h1.calm, h1.ready hready⟩
    · exact Or.inr hf
  | flush =>
    refine (logfsFileFlush_spec hready).imp ?_
    rintro r s1 (⟨hr, h1⟩ | hf)
    · exact Or.inl ⟨hr, h1.calm, h1.ready hready⟩
    · exact Or.inr hf

theorem runFileOps_spec (ops : List FileOp) : ∀ s, Ready s →
    Wp (runFileOps c ops)
      (fun r s' => (r = 0 ∧ Calm c s s' ∧ Ready s') ∨ r = - EIO ∧ Failed c s s')
      (fun _ s' => Halted c s s') s := by
  induction ops with
  | nil => exact fun s hready => Or.inl ⟨rfl, .refl, hready⟩
  | cons op ops ih =>
    intro s hready
    unfold runFileOps
    refine (op.run_spec hready).seq ?_ fun _ _ h => h
    rintro err s1 (⟨rfl, h1, hready1⟩ | ⟨rfl, hf⟩)
    · rw [if_neg (by decide)]
      refine (ih s1 hready1).mono ?_ fun _ _ => h1.halted
      rintro r s2 (⟨hr, h2, hready2⟩ | ⟨hr, hf⟩)
      · exact Or.inl ⟨hr, h1.trans h2, hready2⟩
      · exact Or.inr ⟨hr, h1.failed hf⟩
    · rw [if_pos (by decide)]
      exact Or.inr ⟨rfl, hf⟩

end FileOps

/-! ## Conservation -/

/-- The three tallies agree, as numbers of 64 bits; they agree as they are unless an area has
taken the segment behind the table. -/
structure Conserved (c : Cfg) (s : Sb) : Prop where
  inodes : s.usedBytes = inodeUsed s % 2 ^ 64
  segments : s.usedBytes = (closedValid s.trace + openUsed s) % 2 ^ 64
  exact : ¬ Stuck c s → s.usedBytes = inodeUsed s ∧ s.usedBytes = closedValid s.trace + openUsed s ∧
    ∑ i ∈ range c.noSegs, (s.segmentEntry i).counted = closedValid s.trace

/-- The sum of the valid fields in aliases, without those of segments that hold no objects. -/
def aliasCounted (aliases : List Alias) : Nat :=
  (aliases.map fun a => (⟨a.val / 2 ^ 32, a.val % 2 ^ 32⟩ : SegEntry).counted).sum

/-- `ds_used_bytes` of what `je_dynsb` writes is what the aliases that `je_alias` writes add up
to. -/
def DynsbAgrees (c : Cfg) (s : Sb) : Prop :=
  ∀ dynsb als t t' s1 s2, jeDynsb s = .ok (dynsb, t) s1 → jeAlias c s1 = .ok (als, t') s2 →
    beNat (peek (padded 0 dynsb) 48 8) = aliasCounted (readAliases als)

/-- The inode of the segment file on the medium, and the anchor, are charged for all objects of
the segment file and of the inode file. -/
structure Settled (c : Cfg) (s : Sb) : Prop where
  dynsb : DynsbAgrees c s
  stored : ∃ o ∈ objects s.trace, o.ino = inoMaster ∧ o.bix = inoSegfile
  segfile : ∀ o ∈ objects s.trace, o.ino = inoMaster → o.bix = inoSegfile →
    ∃ w, .done w true ∈ s.trace ∧ w.target = .area o.area o.segno ∧
      At w.buf o.used (o.bytes c) ∧
      beNat (peek w.buf (o.used + objectHeadersize + 48) 8) = sizes (inodeObjs inoSegfile s.trace)
  anchor : ∀ data t s', jeAnchor s = .ok (data, t) s' →
    beNat (peek (padded 0 data) 16 8) = sizes (inodeObjs inoMaster s.trace)

section Conserve

variable {c : Cfg} {s s' : Sb}

/-- Without overflow there is nothing behind the table. -/
theorem Blank.exact (hb : Blank c s) (h : Calm c s s') (hs : ¬ Stuck c s') :
    Counted c s' ∧ sizes (objects s'.trace) < 2 ^ 64 := by
  have hsteps := h.steps hs
  have hf := h.fillings hb.fillings
  exact ⟨hb.counted.steps hb.fillings hsteps,
    (hb.bounded.steps hb.fillings hsteps).lt hf (h.tallied hb.fillings hb.tallied)⟩

theorem Blank.conserved (hb : Blank c s) (h : Calm c s s') : Conserved c s' := by
  have hc := h.charged hb.charged
  have ht : closedValid s'.trace + openUsed s' = sizes (objects s'.trace) :=
    h.tallied hb.fillings hb.tallied
  refine ⟨by rw [hc.used, hc.inodeUsed.1], by rw [hc.used, ht], fun hs => ?_⟩
  obtain ⟨hcount, hlt⟩ := hb.exact h hs
  refine ⟨?_, ?_, hcount.sum⟩
  · rw [hc.inodeUsed.2 hlt, hc.used, Nat.mod_eq_of_lt hlt]
  · rw [ht, hc.used, Nat.mod_eq_of_lt hlt]

/-! ## What goes to the medium -/

/-- An alias carries the entry. -/
theorem entryAlias_entry (hw : ∀ i, (s.segmentEntry i).Words) (i : Nat) :
    (⟨(entryAlias s i).val / 2 ^ 32, (entryAlias s i).val % 2 ^ 32⟩ : SegEntry) =
      s.segmentEntry i := by
  have hv := (hw i).2
  have hval : (entryAlias s i).val =
    (s.segmentEntry i).ecLevel * 2 ^ 32 + (s.segmentEntry i).valid := rfl
  have h1 : (entryAlias s i).val / 2 ^ 32 = (s.segmentEntry i).ecLevel := by omega
  have h2 : (entryAlias s i).val % 2 ^ 32 = (s.segmentEntry i).valid := by omega
  rw [h1, h2]

/-- The aliases count what the table counts. -/
theorem aliasCounted_eq (hsegs : c.noSegs < 2 ^ 31) (hw : ∀ i, (s.segmentEntry i).Words) :
    aliasCounted (readAliases (segmentAliases c s).flatten) =
      ∑ i ∈ range c.noSegs, (s.segmentEntry i).counted := by
  have hmap : ∀ l : List Nat, (l.map (entryAlias s)).map (fun a =>
      (⟨a.val / 2 ^ 32, a.val % 2 ^ 32⟩ : SegEntry).counted) =
      l.map fun i => (s.segmentEntry i).counted := by
    intro l
    induction l with
    | nil => rfl
    | cons i l ih => rw [List.map_cons, List.map_cons, List.map_cons, entryAlias_entry hw, ih]
  rw [readAliases_eq hsegs fun i _ => hw i, aliasCounted, hmap, ← sum_map_range]
  refine sum_map_filter fun i _ hz => ?_
  have hz : s.segmentEntry i = .zero := by simpa using hz
  rw [hz, counted_zero]

theorem dynsb_usedBytes {n : Nat} (hn : n < 2 ^ 64) :
    beNat (peek (padded 0 (dynsbBytes 0x1000 n)) 48 8) = n := by
  have h := at_padded 0 (dynsbBytes 0x1000 n)
  simp only [dynsbBytes, at_append, List.append_assoc, be_length] at h
  exact h.2.2.2.2.2.2.1.beNat_eq hn

theorem jeAlias_ok {s1 : Sb} {als : List UInt8} {t : JeType}
    (h : jeAlias c s = .ok (als, t) s1) : c.noSegs < 2 ^ 31 ∧ als = (segmentAliases c s).flatten := by
  have hspec : Wp (jeAlias c) (fun r _ => c.noSegs < 2 ^ 31 ∧ r.1 = (segmentAliases c s).flatten)
      (fun _ _ => True) s := by
    unfold jeAlias
    rw [wp_bind, wp_get, wp_ite]
    exact ⟨fun _ => trivial, fun hno => ⟨not_le.1 fun h => hno (Or.inl h), rfl⟩⟩
  exact hspec.of_ok h

theorem Blank.dynsbAgrees (hb : Blank c s) (h : Calm c s s')
    (hclosed : ∀ l, isOpen l s'.trace = false) : DynsbAgrees c s' := by
  intro dynsb als t t' s1 s2 h1 h2
  have hs : ¬ Stuck c s' := fun ⟨l, hl, _⟩ => by
    rw [hclosed] at hl
    cases hl
  obtain ⟨hcount, hlt⟩ := hb.exact h hs
  obtain ⟨-, hused, hsum⟩ := (hb.conserved h).exact hs
  have hopen : openUsed s' = 0 := openSum_closed hclosed _
  cases h1
  obtain ⟨hsegs, rfl⟩ := jeAlias_ok h2
  rw [aliasCounted_eq hsegs hcount.words, hsum, dynsb_usedBytes, hused, hopen, Nat.add_zero]
  rw [(h.charged hb.charged).used]
  exact Nat.mod_lt _ (by decide)

theorem inodeUsed_at {buf : Buf} {ofs : Nat} {di : DiskInode} (h : At buf ofs di.bytes)
    (hn : di.usedBytes < 2 ^ 64) : beNat (peek buf (ofs + 48) 8) = di.usedBytes := by
  simp only [DiskInode.bytes, at_append, List.append_assoc, be_length] at h
  exact h.2.2.2.2.2.2.2.2.2.2.2.1.beNat_eq hn

theorem anchorUsed_at {size lastIno n : Nat} {data : Nat → Nat} (hn : n < 2 ^ 64) :
    beNat (peek (padded 0 (anchorBytes size lastIno n data)) 16 8) = n := by
  have h := at_padded 0 (anchorBytes size lastIno n data)
  simp only [anchorBytes, at_append, List.append_assoc, be_length] at h
  exact h.2.2.1.beNat_eq hn

/-- An inode that was stored is where its object is. -/
theorem inode_at {buf : Buf} {o : Obj} {ino : Nat} {i : Inode} (h : At buf o.used (o.bytes c))
    (ho : o.call = inodeCall ino i) : At buf (o.used + objectHeadersize) i.di.bytes := by
  have hpeek : peek o.call.data 0 (objLen o.call.type) = i.di.bytes := by
    rw [ho, inodeCall]
    dsimp only
    exact (at_padded 0 i.di.bytes).peek_eq i.di.bytes_length
  have h2 : At buf (o.used + objectHeadersize) (peek o.call.data 0 (objLen o.call.type)) := by
    have h2 := (at_append.1 h).2
    rwa [objectHeader_length] at h2
  rwa [hpeek] at h2

/-- The inode of the segment file is stored once, at the end. -/
theorem SegfileObjs.master {new : List Obj} (h : SegfileObjs c s new) :
    (∃ o ∈ new, o.ino = inoMaster ∧ o.bix = inoSegfile) ∧
      ∀ o ∈ new, o.ino = inoMaster → o.call = inodeCall inoSegfile (inodeAt s inoSegfile) := by
  obtain ⟨blocks, indirect, i, rfl, hblocks, hind, hi⟩ := h.split
  refine ⟨⟨i, List.mem_cons_self, congrArg Call.ino hi, congrArg Call.bix hi⟩, fun o ho hino => ?_⟩
  rcases List.mem_cons.1 ho with rfl | ho
  · exact hi
  · have hother : o.ino = inoSegfile := by
      rcases List.mem_append.1 ho with ho | ho
      · exact (hind o ho).ino_eq
      · have hmem : o.call ∈ blocks.map Obj.call := List.mem_map_of_mem ho
        rw [hblocks, List.mem_reverse, List.mem_map] at hmem
        obtain ⟨bix, -, hcall⟩ := hmem
        exact (congrArg Call.ino hcall).symm
    rw [hino] at hother
    exact absurd hother (by decide)

theorem settled {os : List Outcome} {s1 s2 : Sb} (h1 : mkfsPrepare c (Sb.zero os) = .ok () s1)
    (h2 : mkfsStore c s1 = .ok () s2) : Settled c s2 := by
  obtain ⟨k1, k2, hr⟩ := reached h1 h2
  have hb := hr.prepared.blank
  have hcalm := hr.ran.calm
  have hs : ¬ Stuck c s2 := fun ⟨l, hl, _⟩ => by
    rw [hr.closed] at hl
    cases hl
  have hlt := (hb.exact hcalm hs).2
  have hf := hcalm.fillings hb.fillings
  have hc := hcalm.charged hb.charged
  have hsmall : ∀ ino, (inodeAt s2 ino).di.usedBytes = sizes (inodeObjs ino s2.trace) := fun ino => by
    rw [hc.inodes, Nat.mod_eq_of_lt (lt_of_le_of_lt ?_ hlt)]
    exact List.Sublist.sum_le_sum (List.filter_sublist.map _) fun _ _ => Nat.zero_le _
  have hword : ∀ ino, (inodeAt s2 ino).di.usedBytes < 2 ^ 64 := fun ino => by
    rw [hc.inodes]
    exact Nat.mod_lt _ (by decide)
  obtain ⟨new, root, hobjs, hseg, hroot⟩ := hr.ran.objects
  rw [hr.prepared.objects, show objects (Sb.zero os).trace = [] from rfl, List.append_nil] at hobjs
  obtain ⟨⟨o1, ho1, hino1, hbix1⟩, honly⟩ := hseg.master
  refine ⟨hb.dynsbAgrees hcalm hr.closed, ⟨o1, by rw [hobjs]; exact List.mem_cons_of_mem _ ho1,
    hino1, hbix1⟩, fun o ho hino hbix => ?_, fun data t s' h => ?_⟩
  · have hcall : o.call = inodeCall inoSegfile (inodeAt s2 inoSegfile) := by
      have ho' := ho
      rw [hobjs] at ho'
      rcases List.mem_cons.1 ho' with rfl | ho'
      · -- the inode of the root directory is another one
        have : o.bix = inoRoot := congrArg Call.bix hroot
        rw [hbix] at this
        exact absurd this (by decide)
      · exact honly o ho' hino
    obtain ⟨p, hp, hop⟩ := hf.mem_written hr.closed ho
    obtain ⟨segno, hw, hobj⟩ := hf.writes _ p hp
    have hat : At p.1.buf o.used (o.bytes c) := by
      rw [hw]
      exact hobj.at hop
    refine ⟨p.1, done_of_written hp, ?_, hat, ?_⟩
    · rw [hw, (hobj.place o hop).2.1]
    · rw [inodeUsed_at (inode_at hat hcall) (hword _), hsmall]
  · unfold jeAnchor at h
    have hd : data = anchorBytes (reservedInos * blocksize) reservedInos
        (inodeAt s2 inoMaster).di.usedBytes (inodeAt s2 inoMaster).di.data := by
      have hspec : Wp (findOrCreateInode inoMaster >>= fun inode =>
          pure (anchorBytes (reservedInos * blocksize) reservedInos inode.di.usedBytes
            inode.di.data, JeType.anchor))
          (fun r _ => r.1 = anchorBytes (reservedInos * blocksize) reservedInos
            (inodeAt s2 inoMaster).di.usedBytes (inodeAt s2 inoMaster).di.data)
          (fun _ _ => True) s2 :=
        (findOrCreateInode_spec c inoMaster s2).bind (by rintro i s3 ⟨rfl, -⟩; rfl)
      exact hspec.of_ok h
    rw [hd, anchorUsed_at (hword _), hsmall]

/-- Space accounting is conserved: by all file operations, up to `flush_segments`, and on the
medium. -/
theorem space_accounting (c : Cfg) :
    (∀ ops s0 s, Blank c s0 → runFileOps c ops s0 = .ok 0 s →
      Conserved c s ∧ ∀ s', flushSegments c s = .ok 0 s' → Conserved c s' ∧ DynsbAgrees c s') ∧
    ∀ os s1 s2, mkfsPrepare c (Sb.zero os) = .ok () s1 → mkfsStore c s1 = .ok () s2 →
      Blank c s1 ∧ Conserved c s2 ∧ Settled c s2 := by
  refine ⟨fun ops s0 s hb h => ?_, fun os s1 s2 h1 h2 => ?_⟩
  · obtain ⟨-, hcalm, hready⟩ := ((runFileOps_spec ops s0 hb.ready).of_ok h).resolve_right
      fun h => absurd h.1 (by decide)
    refine ⟨hb.conserved hcalm, fun s' h' => ?_⟩
    obtain ⟨-, hflush⟩ := ((flushSegments_spec hready).of_ok h').resolve_right
      fun h => absurd h.1 (by decide)
    have hcalm' := hcalm.trans hflush.calm
    refine ⟨hb.conserved hcalm', hb.dynsbAgrees hcalm' fun l => ?_⟩
    rcases Nat.lt_or_ge l noAreas with hl | hl
    · exact hflush.closed l (Nat.zero_le _) (by omega)
    · rw [hcalm'.isOpen_ge hl, hb.quiet.isOpen]
  · obtain ⟨k1, k2, hr⟩ := reached h1 h2
    exact ⟨hr.prepared.blank, hr.prepared.blank.conserved hr.ran.calm, settled h1 h2⟩

/-- A file with a direct block and one behind two indirect blocks. -/
def sampleOps : List FileOp :=
  [.write 20 0 0 .block fun _ => 1, .write 20 600 0 .block fun _ => 2, .flush 20]

theorem space_accounting_sixteen :
    Conserved sixteenGiB (after (runFileOps sixteenGiB sampleOps) (badStart 0)) ∧
      Settled sixteenGiB (storedStart 0) := by
  obtain ⟨hops, hrun⟩ := space_accounting sixteenGiB
  have h := ok_of_returnsZero (m := runFileOps sixteenGiB sampleOps) (s := badStart 0)
    (by decide +kernel)
  obtain ⟨_, h1⟩ := ok_of_returns (m := mkfsPrepare sixteenGiB) (s := badStart 0) (by decide +kernel)
  obtain ⟨_, h2⟩ := ok_of_returns (m := mkfsStore sixteenGiB)
    (s := after (mkfsPrepare sixteenGiB) (badStart 0)) (by decide +kernel)
  exact ⟨(hops _ _ _ (blank_zero _ _) h).1, (hrun _ _ _ h1 h2).2.2⟩

end Conserve

end Logfs.Mkfs
