import Logfs.Mkfs.Table
import Logfs.Mkfs.Walk

/-!
# What the journal finds in the segment table

When a run reaches `make_journal` no area is open, and each segment `get_segment`
has tried has an entry: as a bad segment, as a reserved one, or as one with
objects.
-/

namespace Logfs.Mkfs

open Relation (ReflTransGen)

section Reach

variable {c : Cfg} {s s' : Sb} {os : List Outcome} {k1 k2 : Nat}

/-- There are no areas behind the twelve. -/
theorem Calm.isOpen_ge {l : Nat} (h : Calm c s s') (hl : noAreas ≤ l) :
    isOpen l s'.trace = isOpen l s.trace := by
  induction h with
  | refl => rfl
  | tail _ hstep ih =>
    rw [← ih]
    rcases hstep with hstep | hstep
    · cases hstep with
      | create => rfl
      | modify => rfl
      | bad h => exact h.sameStore.isOpen l
      | reserve _ h => exact h.sameStore.isOpen l
      | fresh hl' _ h =>
        rw [isOpen, if_neg (by omega)]
        exact h.sameStore.isOpen l
      | append => rfl
      | close hw _ h =>
        have := hw.lt
        rw [isOpen, if_neg (by omega), h.same]
        rfl
    · cases hstep with
      | mk hl' _ h =>
        rw [isOpen, if_neg (by omega)]
        exact h.sameStore.isOpen l

theorem First.area (h : First c k1 s s') : s'.area = s.area := by
  obtain ⟨s1, s2, hbad, ht, rfl⟩ := h.chain
  exact ((SameStore.of_badTurns hbad).trans ht.sameStore).area

theorem Prepared.area (h : Prepared c k1 k2 s s') : s'.area = s.area := by
  obtain ⟨s1, s2, h1, h2, rfl⟩ := h.steps
  refine Eq.trans ?_ h1.area
  cases h2 with
  | bdev _ _ _ h => rw [h]
  | mtd _ h =>
    obtain ⟨fails, -, hs2⟩ := h.same
    rw [hs2]

/-- After `prepare_sb` there are no areas. -/
theorem Prepared.ready (h : Prepared c k1 k2 (Sb.zero os) s') : Ready s' := by
  intro l
  rw [h.table.2.2, h.area]
  rfl

/-- A run that has come to `make_journal`. -/
structure Reached (c : Cfg) (os : List Outcome) (k1 k2 : Nat) (s1 s2 : Sb) : Prop where
  prepared : Prepared c k1 k2 (Sb.zero os) s1
  ran : StoreRan c s1 s2
  closed : ∀ l, isOpen l s2.trace = false
  steps : ReflTransGen (Step c) s1 s2
  table : Table c (· = k2) s2

theorem reached {s1 s2 : Sb} (h1 : mkfsPrepare c (Sb.zero os) = .ok () s1)
    (h2 : mkfsStore c s1 = .ok () s2) : ∃ k1 k2, Reached c os k1 k2 s1 s2 := by
  obtain ⟨k1, k2, hp⟩ := (mkfsPrepare_spec rfl).of_ok h1
  have hr := (mkfsStore_spec hp.ready).of_ok h2
  have hclosed : ∀ l, isOpen l s2.trace = false := by
    intro l
    rcases Nat.lt_or_ge l noAreas with hl | hl
    · exact hr.closed l hl
    · rw [hr.calm.isOpen_ge hl, hp.table.2.2]
  have hsteps := hr.calm.steps fun ⟨l, hl, _⟩ => by
    rw [hclosed] at hl
    cases hl
  exact ⟨k1, k2, hp, hr, hclosed, hsteps, hp.table.1.steps hsteps⟩

end Reach

/-! ## Bad segments -/

def Try.ok : Try → Bool
  | .erase ok => ok
  | .scan ok => ok

/-- The table records the bad segments: those whose last erase has failed, and none of those that
could be erased each time. -/
structure Recorded (s : Sb) : Prop where
  marked : ∀ i t, lastTry i s.trace = some t → t.ok = false → s.segmentEntry i = ⟨badseg, reserved⟩
  others : ∀ i, (∀ ok, .erase i ok ∈ s.trace ∨ .scan i ok ∈ s.trace → ok = true) →
    (s.segmentEntry i).ecLevel ≠ badseg

section Bad

variable {c : Cfg} {os : List Outcome} {s1 s2 : Sb}

/-- The bad segments are recorded just when none was last tried, in vain, by the scan of
`mtd_prepare_sb`. -/
theorem bad_segments_recorded_iff (c : Cfg) (os : List Outcome) (s1 s2 : Sb)
    (h1 : mkfsPrepare c (Sb.zero os) = .ok () s1) (h2 : mkfsStore c s1 = .ok () s2) :
    Recorded s2 ↔ ∀ i, lastTry i s2.trace ≠ some (.scan false) := by
  obtain ⟨k1, k2, hr⟩ := reached h1 h2
  constructor
  · intro hrec i hi
    refine hr.table.scanned i hi ?_
    rw [hrec.marked i _ hi rfl]
  · intro hscan
    refine ⟨fun i t hi ht => ?_, fun i hall hbad => ?_⟩
    · cases t with
      | erase ok =>
        cases ht
        exact hr.table.failed i hi
      | scan ok =>
        cases ht
        exact absurd hi (hscan i)
    · have := hall false (Or.inl (hr.table.bad i hbad))
      cases this

/-- A turn of the scan of `mtd_prepare_sb` that has failed. -/
def Event.failedScan : Event → Bool
  | .scan _ ok => !ok
  | _ => false

theorem lastTry_ne_scan {tr : List Event} (h : tr.any Event.failedScan = false) (i : Nat) :
    lastTry i tr ≠ some (.scan false) := by
  induction tr with
  | nil => exact fun h => by cases h
  | cons e tr ih =>
    rw [List.any_cons, Bool.or_eq_false_iff] at h
    have htr := ih h.2
    cases e with
    | erase j ok =>
      rw [lastTry]
      split_ifs
      · simp
      · exact htr
    | scan j ok =>
      rw [lastTry]
      split_ifs
      · have : ok = true := by simpa [Event.failedScan] using h.1
        simp [this]
      · exact htr
    | _ => exact htr

/-- Sixty-four segments of flash, of which the last one is bad. -/
def badEnd : List Outcome := .ok 0 :: .error :: List.replicate 40 (.ok 8192)

def flash64 : Cfg := sampleCfg .mtd 13 64 smallest_gt smallest_le sixtyFour_lt

def flashPrepared (os : List Outcome) : Sb := after (mkfsPrepare flash64) (Sb.zero os)

def flashStored (os : List Outcome) : Sb := after (mkfsStore flash64) (flashPrepared os)

/-- The first two segments are bad. -/
def badBegin : List Outcome := .error :: .error :: List.replicate 40 (.ok 8192)

/-- What `get_segment` has failed to erase is recorded. -/
theorem bad_segments_recorded_iff_begin :
    Recorded (flashStored badBegin) ∧
      (flashStored badBegin).segmentEntry 1 = ⟨badseg, reserved⟩ := by
  obtain ⟨_, h1⟩ := ok_of_returns (m := mkfsPrepare flash64) (s := Sb.zero badBegin)
    (by decide +kernel)
  obtain ⟨_, h2⟩ := ok_of_returns (m := mkfsStore flash64) (s := flashPrepared badBegin)
    (by decide +kernel)
  have hrec : Recorded (flashStored badBegin) :=
    (bad_segments_recorded_iff flash64 _ _ _ h1 h2).2 (lastTry_ne_scan (by decide +kernel))
  have htry : lastTry 1 (flashStored badBegin).trace = some (.erase false) := by decide +kernel
  exact ⟨hrec, hrec.marked 1 _ htry rfl⟩

/-- The last segment of `badEnd` is not recorded. -/
theorem bad_segment_unrecorded :
    ¬ ∀ (c : Cfg) (os : List Outcome) (s1 s2 : Sb), mkfsPrepare c (Sb.zero os) = .ok () s1 →
      mkfsStore c s1 = .ok () s2 → Recorded s2 := by
  intro h
  obtain ⟨_, h1⟩ := ok_of_returns (m := mkfsPrepare flash64) (s := Sb.zero badEnd)
    (by decide +kernel)
  obtain ⟨_, h2⟩ := ok_of_returns (m := mkfsStore flash64) (s := flashPrepared badEnd)
    (by decide +kernel)
  have hmark := (h flash64 badEnd _ _ h1 h2).marked 63 (.scan false) (by decide +kernel) rfl
  exact absurd hmark (by decide +kernel)

end Bad

/-! ## The length of the alias list -/

/-- The segment of the second superblock. -/
def secondSegno (c : Cfg) (s : Sb) : Nat :=
  match c.kind with
  | .bdev => c.noSegs - 1
  | .mtd => s.sbOfs2 / c.segsize

/-- The segments that are recorded: those `get_segment` has tried and that of the second
superblock. -/
def recordedSegs (c : Cfg) (s : Sb) : Nat :=
  s.lastseg + if secondSegno c s < s.lastseg then 0 else 1

theorem aliasBytes_length (ino bix val childNo : Nat) :
    (aliasBytes ino bix val childNo).length = 32 := by
  simp [aliasBytes]

section Length

variable {c : Cfg} {os : List Outcome} {s s' s1 s2 : Sb} {k1 k2 : Nat}

theorem segmentAlias_isSome {i : Nat} : (segmentAlias s i).isSome ↔ s.segmentEntry i ≠ .zero := by
  unfold segmentAlias
  rcases h : s.segmentEntry i with ⟨e, v⟩
  dsimp only
  split_ifs with hne
  · refine iff_of_true rfl fun hz => ?_
    cases hz
    simp at hne
  · rw [not_or, not_not, not_not] at hne
    simp [SegEntry.zero, hne.1, hne.2]

/-- All aliases are 32 bytes long. -/
theorem segmentAliases_length32 (c : Cfg) (s : Sb) : ∀ bs ∈ segmentAliases c s, bs.length = 32 := by
  intro bs hbs
  obtain ⟨i, -, hi⟩ := List.mem_filterMap.1 hbs
  unfold segmentAlias at hi
  dsimp only at hi
  split_ifs at hi
  rw [← Option.some_inj.1 hi]
  exact aliasBytes_length ..

theorem segmentAliases_flatten_length (c : Cfg) (s : Sb) :
    (segmentAliases c s).flatten.length = 32 * (segmentAliases c s).length := by
  rw [List.length_flatten, List.map_congr_left (segmentAliases_length32 c s)]
  simp [Nat.mul_comm]

theorem length_filterMap_range {α : Type} (f : Nat → Option α) (n : Nat) :
    ((List.range n).filterMap f).length = ((Finset.range n).filter fun i => (f i).isSome).card := by
  induction n with
  | zero => rfl
  | succ n ih =>
    rw [List.range_succ, List.filterMap_append, List.length_append, ih, Finset.range_add_one,
      Finset.filter_insert]
    cases hf : f n with
    | none => simp [hf]
    | some a => simp [hf]

/-- The number of aliases is that of the segments recorded. -/
theorem Table.aliases_length (ht : Table c (· = k2) s) (hk : k2 < c.noSegs)
    (hclosed : ∀ l, isOpen l s.trace = false) :
    (segmentAliases c s).length = s.lastseg + if k2 < s.lastseg then 0 else 1 := by
  have hiff : ∀ i, s.segmentEntry i ≠ .zero ↔ i < s.lastseg ∨ i = k2 := by
    intro i
    constructor
    · intro hne
      by_contra hno
      rw [not_or] at hno
      exact hne (ht.unused i (by omega) hno.2)
    · intro hi hz
      obtain ⟨l, hl, -⟩ := ht.used i hi hz
      rw [hclosed] at hl
      cases hl
  have hset : (Finset.range c.noSegs).filter (fun i => (segmentAlias s i).isSome) =
      insert k2 (Finset.range s.lastseg) := by
    have hle := ht.lastseg_le
    ext i
    rw [Finset.mem_filter, segmentAlias_isSome, hiff, Finset.mem_insert, Finset.mem_range,
      Finset.mem_range]
    omega
  unfold segmentAliases
  rw [length_filterMap_range, hset]
  split_ifs with hlt
  · rw [Finset.insert_eq_of_mem (Finset.mem_range.2 hlt), Finset.card_range, Nat.add_zero]
  · rw [Finset.card_insert_of_notMem (by simpa using hlt), Finset.card_range]

/-- The superblocks stay where they are. -/
theorem Step.sbOfs (h : Step c s s') : s'.sbOfs1 = s.sbOfs1 ∧ s'.sbOfs2 = s.sbOfs2 := by
  cases h with
  | create => exact ⟨rfl, rfl⟩
  | modify => exact ⟨rfl, rfl⟩
  | bad h => rw [h.same]; exact ⟨rfl, rfl⟩
  | reserve _ h => rw [h.same]; exact ⟨rfl, rfl⟩
  | fresh _ _ h => rw [h.same]; exact ⟨rfl, rfl⟩
  | append => exact ⟨rfl, rfl⟩
  | close _ _ h => rw [h.same]; exact ⟨rfl, rfl⟩

theorem steps_sbOfs (h : ReflTransGen (Step c) s s') :
    s'.sbOfs1 = s.sbOfs1 ∧ s'.sbOfs2 = s.sbOfs2 := by
  induction h with
  | refl => exact ⟨rfl, rfl⟩
  | tail _ hstep ih => exact ⟨hstep.sbOfs.1.trans ih.1, hstep.sbOfs.2.trans ih.2⟩

theorem Prepared.secondSegno (h : Prepared c k1 k2 s s') : secondSegno c s' = k2 := by
  obtain ⟨s1, s2, -, h2, rfl⟩ := h.steps
  unfold Mkfs.secondSegno
  cases h2 with
  | bdev hkind hk =>
    rw [hkind, hk]
  | mtd hkind h =>
    obtain ⟨fails, -, hs2⟩ := h.same
    rw [hkind, hs2]
    dsimp only
    have := c.two_blocks_le
    rw [Nat.add_mul, Nat.one_mul, Nat.add_sub_assoc (by omega), Nat.add_comm,
      Nat.add_mul_div_right _ _ c.segsize_pos, Nat.div_eq_of_lt (by omega), Nat.zero_add]

theorem Reached.aliases_length (h : Reached c os k1 k2 s1 s2) :
    (segmentAliases c s2).length = recordedSegs c s2 := by
  have hsec : secondSegno c s2 = k2 := by
    rw [← h.prepared.secondSegno]
    unfold secondSegno
    rw [(steps_sbOfs h.steps).2]
  rw [recordedSegs, hsec]
  exact h.table.aliases_length h.prepared.table.2.1 h.closed

/-- The aliases fit into the scratch buffer, and their length into 16 bits, just when there are at
most 256 segments to record. -/
theorem alias_list_fits_iff (c : Cfg) (os : List Outcome) (s1 s2 : Sb)
    (h1 : mkfsPrepare c (Sb.zero os) = .ok () s1) (h2 : mkfsStore c s1 = .ok () s2) :
    ((segmentAliases c s2).flatten.length ≤ 2 * blocksize ∧
      (segmentAliases c s2).flatten.length < 2 ^ 16) ↔ recordedSegs c s2 ≤ 256 := by
  obtain ⟨k1, k2, hr⟩ := reached h1 h2
  rw [segmentAliases_flatten_length, hr.aliases_length]
  simp only [blocksize, blockshift]
  omega

/-- A block device of 300 segments, the first `bad` of which cannot be written. -/
def disk300 : Cfg := sampleCfg .bdev 13 300 smallest_gt smallest_le (by decide)

def diskPrepared (bad : Nat) : Sb :=
  after (mkfsPrepare disk300)
    (Sb.zero (List.replicate bad .error ++ List.replicate 40 (.ok 8192)))

def diskStored (bad : Nat) : Sb := after (mkfsStore disk300) (diskPrepared bad)

theorem alias_list_fits_iff_good :
    (segmentAliases disk300 (diskStored 0)).flatten.length ≤ 2 * blocksize ∧
      (segmentAliases disk300 (diskStored 0)).flatten.length < 2 ^ 16 := by
  obtain ⟨_, h1⟩ := ok_of_returns (m := mkfsPrepare disk300)
    (s := Sb.zero (List.replicate 0 .error ++ List.replicate 40 (.ok 8192))) (by decide +kernel)
  obtain ⟨_, h2⟩ := ok_of_returns (m := mkfsStore disk300) (s := diskPrepared 0) (by decide +kernel)
  exact (alias_list_fits_iff disk300 _ _ _ h1 h2).2 (by decide +kernel)

/-- With 256 bad segments there are too many aliases. -/
theorem alias_list_too_long :
    ¬ ∀ (c : Cfg) (os : List Outcome) (s1 s2 : Sb), mkfsPrepare c (Sb.zero os) = .ok () s1 →
      mkfsStore c s1 = .ok () s2 → (segmentAliases c s2).flatten.length ≤ 2 * blocksize ∧
        (segmentAliases c s2).flatten.length < 2 ^ 16 := by
  intro h
  obtain ⟨_, h1⟩ := ok_of_returns (m := mkfsPrepare disk300)
    (s := Sb.zero (List.replicate 256 .error ++ List.replicate 40 (.ok 8192))) (by decide +kernel)
  obtain ⟨_, h2⟩ := ok_of_returns (m := mkfsStore disk300) (s := diskPrepared 256)
    (by decide +kernel)
  obtain ⟨k1, k2, hr⟩ := reached h1 h2
  have hlen := (h disk300 _ _ _ h1 h2).1
  rw [segmentAliases_flatten_length, hr.aliases_length] at hlen
  exact absurd hlen (by decide +kernel)

end Length

end Logfs.Mkfs
