import Mathlib.Data.Nat.Bitwise

/-!
# Low bits set, and fields of bits

`x ||| (2 ^ k - 1)` is `x` with its low `k` bits set: it names the block of `2 ^ k` numbers
that `x` lies in.  A shift up and down again inside a word keeps a field of low bits.
-/

namespace Logfs

variable {x y k n i : Nat}

theorem testBit_or_ones : (x ||| (2 ^ k - 1)).testBit i = (decide (i < k) || x.testBit i) := by
  rw [Nat.testBit_or, Nat.testBit_two_pow_sub_one, Bool.or_comm]

/-- The bits above the ones are those of the number. -/
theorem or_ones_div (h : k ≤ n) : (x ||| (2 ^ k - 1)) / 2 ^ n = x / 2 ^ n := by
  have hlt : 2 ^ k - 1 < 2 ^ n := by
    have hle : 2 ^ k ≤ 2 ^ n := Nat.pow_le_pow_right (by decide) h
    have hpos : 0 < 2 ^ k := Nat.two_pow_pos k
    omega
  rw [Nat.or_div_two_pow, Nat.div_eq_of_lt hlt, Nat.or_zero]

/-- Two numbers agree with their low bits set when they lie in one block. -/
theorem or_ones_eq_iff : x ||| (2 ^ k - 1) = y ||| (2 ^ k - 1) ↔ x / 2 ^ k = y / 2 ^ k := by
  constructor
  · intro h
    rw [← or_ones_div (x := x) (le_refl k), ← or_ones_div (x := y) (le_refl k), h]
  · intro h
    apply Nat.eq_of_testBit_eq
    intro i
    rw [testBit_or_ones, testBit_or_ones]
    by_cases hi : i < k
    · simp only [hi, decide_true, Bool.true_or]
    · have hsplit : i = i - k + k := by omega
      rw [hsplit, ← Nat.testBit_div_two_pow, ← Nat.testBit_div_two_pow, h]

/-- A number with its low bits set is the last of its block. -/
theorem or_ones_eq : x ||| (2 ^ k - 1) = x / 2 ^ k * 2 ^ k + (2 ^ k - 1) := by
  have hpos : 0 < 2 ^ k := Nat.two_pow_pos k
  apply Nat.eq_of_testBit_eq
  intro i
  rw [testBit_or_ones, Nat.mul_comm, Nat.testBit_two_pow_mul_add _ (by omega)]
  split_ifs with hi
  · rw [Nat.testBit_two_pow_sub_one, decide_eq_true hi, Bool.true_or]
  · rw [Nat.testBit_div_two_pow, decide_eq_false hi, Bool.false_or, Nat.sub_add_cancel (by omega)]

/-- More ones cover fewer. -/
theorem or_ones_or_ones (h : k ≤ n) :
    x ||| (2 ^ k - 1) ||| (2 ^ n - 1) = x ||| (2 ^ n - 1) :=
  or_ones_eq_iff.mpr (or_ones_div h)

/-- A shift up to the top of a word and down again keeps the low bits. -/
theorem shift_up_down : ((x <<< k) % 2 ^ (n + k)) >>> k = x % 2 ^ n := by
  rw [Nat.shiftLeft_eq, Nat.shiftRight_eq_div_pow, Nat.pow_add, Nat.mul_mod_mul_right,
    Nat.mul_div_cancel _ (Nat.two_pow_pos k)]

/-- A field of bits with all bits above it is the number without its low bits. -/
theorem field_eq_iff :
    (x / 2 ^ (k + n) = y / 2 ^ (k + n) ∧ x / 2 ^ k % 2 ^ n = y / 2 ^ k % 2 ^ n) ↔
      x / 2 ^ k = y / 2 ^ k := by
  rw [Nat.pow_add, ← Nat.div_div_eq_div_mul, ← Nat.div_div_eq_div_mul]
  constructor
  · rintro ⟨hhigh, hlow⟩
    rw [← Nat.div_add_mod (x / 2 ^ k) (2 ^ n), ← Nat.div_add_mod (y / 2 ^ k) (2 ^ n), hhigh, hlow]
  · intro h
    rw [h]
    exact ⟨rfl, rfl⟩

end Logfs
