import Logfs.Lib.Bits
import Logfs.Mkfs.Readwrite

/-!
# Parents and slots of blocks

The masks and slots of `readwrite.c` as its machine words compute them.  A shift that C
leaves undefined has no value: `1 << k` is an `int` and ends at 30 bits, shifts of a `u64`
end at 63.

A block of level `l` is named by an index with its low `9 * l` bits set, its parent by the
index with `9 * (l + 1)` of them set.  `bixmask` shifts an `int`, so that the parents of
the levels three and four have no index at all, while `maxbix` shifts a `1ULL` and reaches
all five levels.
-/

namespace Logfs.Mkfs

/-! ## Words -/

/-- `1 << k`, an `int`. -/
def shlInt (k : Nat) : Option Nat := if k < 31 then some (1 <<< k) else none

/-- `val << k` of a `u64`. -/
def shlU64 (val k : Nat) : Option Nat := if k < 64 then some ((val <<< k) % 2 ^ 64) else none

/-- `val >> k` of a `u64`. -/
def shrU64 (val k : Nat) : Option Nat := if k < 64 then some (val >>> k) else none

/-- `LOGFS_MAX_INDIRECT`. -/
def maxIndirect : Nat := 5

/-- `__get_bits`. -/
def getBitsRaw (val skip no : Nat) : Option Nat := do
  let ret ← shrU64 val (skip * no)
  let ret ← shlU64 ret (64 - no)
  shrU64 ret (64 - no)

/-- `get_bits`. -/
def getBitsWord (bix level : Nat) : Option Nat := getBitsRaw bix level (blockshift - 3)

/-- `bixmask`. -/
def bixmaskWord (level : Nat) : Option Nat :=
  if level = 0 then some 0 else (shlInt ((blockshift - 3) * level)).map fun v => v - 1

/-- `maxbix`. -/
def maxbixWord (height : Nat) : Option Nat := shlU64 1 (blockBits * height)

/-- `parent_bix` of `write_loop`. -/
def parentBix (bix level : Nat) : Option Nat :=
  (bixmaskWord (level + 1)).map fun mask => bix ||| mask

variable {bix level height p : Nat}

theorem bixmaskWord_eq : bixmaskWord level = if level < 4 then some (bixmask level) else none := by
  simp only [bixmaskWord, bixmask, shlInt, blockshift, blockBits]
  by_cases h0 : level = 0
  · simp [h0]
  · by_cases h4 : level < 4
    · have h31 : (12 - 3) * level < 31 := by omega
      simp [h0, h4, h31, Nat.shiftLeft_eq]
    · have h31 : ¬ (12 - 3) * level < 31 := by omega
      simp [h0, h4, h31]

/-- The slot is exact as long as the shift is one of a `u64`. -/
theorem getBitsWord_eq (h : level < 8) : getBitsWord bix level = some (getBits bix level) := by
  have hskip : level * (blockshift - 3) < 64 := by
    simp only [blockshift]
    omega
  have hno : 64 - (blockshift - 3) < 64 := by decide
  simp only [getBitsWord, getBitsRaw, shrU64, shlU64, hskip, hno, if_true, Option.bind_eq_bind,
    Option.bind_some]
  rw [show (2 : Nat) ^ 64 = 2 ^ (9 + (64 - (blockshift - 3))) from rfl, shift_up_down,
    Nat.shiftRight_eq_div_pow, Nat.mul_comm level]
  rfl

theorem maxbixWord_eq (h : height < 8) : maxbixWord height = some (maxbix height) := by
  have hshift : blockBits * height < 64 := by
    simp only [blockBits]
    omega
  have hlt : 2 ^ (blockBits * height) < 2 ^ 64 := Nat.pow_lt_pow_right (by decide) hshift
  simp only [maxbixWord, shlU64, hshift, if_true, Nat.shiftLeft_eq, Nat.one_mul,
    Nat.mod_eq_of_lt hlt, maxbix]

/-- A parent has an index on the levels below three only. -/
theorem parentBix_eq : parentBix bix level =
    if level < 3 then some (bix ||| (2 ^ (blockBits * (level + 1)) - 1)) else none := by
  rw [parentBix, bixmaskWord_eq]
  by_cases h : level < 3
  · have h4 : level + 1 < 4 := by omega
    simp only [h, h4, if_true, Option.map_some, bixmask, Nat.succ_ne_zero, if_false]
  · have h4 : ¬ level + 1 < 4 := by omega
    simp only [h, h4, if_false, Option.map_none]

theorem parentBix_some (h : level < 3) :
    parentBix bix level = some (bix ||| (2 ^ (blockBits * (level + 1)) - 1)) := by
  rw [parentBix_eq, if_pos h]

/-- Where `write_loop` does not stop, its masks and slots are those of the words. -/
theorem parentBix_eq_some_iff :
    parentBix bix level = some p ↔ level + 1 < 4 ∧ p = bix ||| bixmask (level + 1) := by
  rw [parentBix, bixmaskWord_eq]
  by_cases h : level + 1 < 4
  · simp only [h, if_true, Option.map_some, Option.some.injEq, true_and, eq_comm]
  · simp only [h, if_false, Option.map_none, false_and, reduceCtorEq]

/-! ## The laws of the addressing -/

/-- One past the indices that the indirect levels can reach, `I5_BLOCKS`. -/
def i5Blocks : Nat := (2 ^ blockBits) ^ maxIndirect

/-- The parent is the index with its low bits set, so that the indices that share it are
those that agree above these bits. -/
def ParentLaw (bix level : Nat) : Prop :=
  ∃ p, parentBix bix level = some p ∧
    (∀ i, p.testBit i = (decide (i < 9 * (level + 1)) || bix.testBit i)) ∧
    ∀ bix' < i5Blocks, parentBix bix' level = some p ↔
      bix' / 2 ^ (9 * (level + 1)) = bix / 2 ^ (9 * (level + 1))

/-- The parent and the slot in it belong to one block of the level. -/
def SlotLaw (bix level : Nat) : Prop :=
  ∃ p slot, parentBix bix level = some p ∧ getBitsWord bix level = some slot ∧ slot < 512 ∧
    ∀ bix' < i5Blocks, (parentBix bix' level = some p ∧ getBitsWord bix' level = some slot) ↔
      bix' / 2 ^ (9 * level) = bix / 2 ^ (9 * level)

/-- The next parent and the slot in it are the same from the parent as from the index. -/
def ClimbLaw (bix level : Nat) : Prop :=
  ∃ p q slot, parentBix bix level = some p ∧
    parentBix p (level + 1) = some q ∧ parentBix bix (level + 1) = some q ∧
    getBitsWord p (level + 1) = some slot ∧ getBitsWord bix (level + 1) = some slot

/-- The shifts give the numbers they stand for. -/
def ShiftLaw (bix level : Nat) : Prop :=
  bixmaskWord (level + 1) = some (2 ^ (9 * (level + 1)) - 1) ∧
    getBitsWord bix level = some (bix / 2 ^ (9 * level) % 512) ∧
    maxbixWord (level + 1) = some (2 ^ (9 * (level + 1)))

/-- The addressing of an index at a level is consistent. -/
structure Addressed (bix level : Nat) : Prop where
  parent : ParentLaw bix level
  slot : SlotLaw bix level
  climb : ClimbLaw bix level
  shift : ShiftLaw bix level

theorem parentLaw_iff : ParentLaw bix level ↔ level ≤ 2 := by
  constructor
  · rintro ⟨p, hp, -⟩
    have h := (parentBix_eq_some_iff.mp hp).1
    omega
  · intro h
    refine ⟨_, parentBix_some (by omega), fun i => testBit_or_ones, fun bix' _ => ?_⟩
    rw [parentBix_some (by omega), Option.some_inj]
    exact or_ones_eq_iff

theorem slotLaw_iff : SlotLaw bix level ↔ level ≤ 2 := by
  constructor
  · rintro ⟨p, slot, hp, -⟩
    have h := (parentBix_eq_some_iff.mp hp).1
    omega
  · intro h
    have h8 : level < 8 := by omega
    refine ⟨_, _, parentBix_some (by omega), getBitsWord_eq h8, Nat.mod_lt _ (by decide),
      fun bix' _ => ?_⟩
    rw [parentBix_some (by omega), getBitsWord_eq h8, Option.some_inj, Option.some_inj,
      or_ones_eq_iff]
    exact field_eq_iff

theorem climbLaw_iff : ClimbLaw bix level ↔ level ≤ 1 := by
  constructor
  · rintro ⟨p, q, slot, -, hq, -⟩
    have h := (parentBix_eq_some_iff.mp hq).1
    omega
  · intro h
    have h8 : level + 1 < 8 := by omega
    have hle : blockBits * (level + 1) ≤ blockBits * (level + 1 + 1) := by
      simp only [blockBits]
      omega
    refine ⟨_, _, _, parentBix_some (by omega), parentBix_some (by omega), ?_, getBitsWord_eq h8,
      ?_⟩
    · rw [parentBix_some (by omega), or_ones_or_ones hle]
    · rw [getBitsWord_eq h8, getBits, getBits, or_ones_div (le_refl _)]

theorem shiftLaw_iff (hl : level < maxIndirect) : ShiftLaw bix level ↔ level ≤ 2 := by
  have h8 : level < 8 := by
    simp only [maxIndirect] at hl
    omega
  have h8' : level + 1 < 8 := by
    simp only [maxIndirect] at hl
    omega
  simp only [ShiftLaw, getBitsWord_eq h8, maxbixWord_eq h8', bixmaskWord_eq]
  constructor
  · rintro ⟨hmask, -⟩
    by_contra hle
    rw [if_neg (by omega)] at hmask
    cases hmask
  · intro h
    rw [if_pos (by omega)]
    exact ⟨rfl, rfl, rfl⟩

/-- The addressing is consistent where the masks of the parent and of the next parent stay
within an `int`: on the levels zero and one.  The parent, its slots and the shifts alone are
right on level two as well, and on no level above it. -/
theorem addressed_iff (bix : Nat) (hl : level < maxIndirect) :
    (Addressed bix level ↔ level ≤ 1) ∧ (ParentLaw bix level ↔ level ≤ 2) ∧
      (SlotLaw bix level ↔ level ≤ 2) ∧ (ClimbLaw bix level ↔ level ≤ 1) ∧
      (ShiftLaw bix level ↔ level ≤ 2) := by
  refine ⟨⟨fun h => climbLaw_iff.mp h.climb, fun h => ?_⟩, parentLaw_iff, slotLaw_iff,
    climbLaw_iff, shiftLaw_iff hl⟩
  have h2 : level ≤ 2 := by omega
  exact ⟨parentLaw_iff.mpr h2, slotLaw_iff.mpr h2, climbLaw_iff.mpr h,
    (shiftLaw_iff hl).mpr h2⟩

theorem addressed_iff_large : Addressed 262143 1 :=
  (addressed_iff 262143 (by decide)).1.mpr (by decide)

/-- The block `512 ^ 3` at level three: `bixmask` is to shift a one by 36 bits. -/
theorem level_three_unaddressed : ¬ Addressed (512 ^ 3) 3 ∧ bixmaskWord 4 = none ∧
    maxbixWord 4 = some (2 ^ 36) := by
  refine ⟨fun h => ?_, by decide, by decide⟩
  obtain ⟨p, hp, -⟩ := h.parent
  cases hp

end Logfs.Mkfs
