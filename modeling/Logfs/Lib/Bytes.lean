import Mathlib.Data.List.GetD
import Mathlib.Tactic

/-!
# Bytes, buffers and big endian numbers

A buffer is a function from positions to bytes; `poke` is `memcpy` into it and
`peek` reads a range.  Numbers are stored most significant byte first.
-/

namespace Logfs

/-- A region of memory, from its first byte on. -/
abbrev Buf := Nat → UInt8

/-- The low `w` bytes of a number, most significant first. -/
def be : Nat → Nat → List UInt8
  | 0, _ => []
  | w + 1, n => UInt8.ofNat (n / 256 ^ w) :: be w n

/-- The number that bytes spell. -/
def beNat : List UInt8 → Nat
  | [] => 0
  | b :: bs => b.toNat * 256 ^ bs.length + beNat bs

/-- `x` rounded up to a multiple of `a`. -/
def align (x a : Nat) : Nat := (x + a - 1) / a * a

/-- `memcpy(buf + ofs, bs, length of bs)`. -/
def poke (buf : Buf) (ofs : Nat) (bs : List UInt8) : Buf := fun i =>
  if ofs ≤ i ∧ i < ofs + bs.length then bs.getD (i - ofs) 0 else buf i

/-- The `n` bytes from `ofs` on. -/
def peek (buf : Buf) (ofs n : Nat) : List UInt8 := (List.range n).map fun i => buf (ofs + i)

/-- A buffer that holds `bs` and then only `fill`. -/
def padded (fill : UInt8) (bs : List UInt8) : Buf := fun i => bs.getD i fill

/-! ## Numbers -/

section Numbers

variable {w n : Nat}

@[simp] theorem be_length (w n : Nat) : (be w n).length = w := by
  induction w with
  | zero => rfl
  | succ w ih => rw [be, List.length_cons, ih]

theorem beNat_be (w n : Nat) : beNat (be w n) = n % 256 ^ w := by
  induction w with
  | zero => simp [be, beNat, Nat.mod_one]
  | succ w ih =>
    rw [be, beNat, be_length, ih, pow_succ, Nat.mod_mul, UInt8.toNat_ofNat']
    ring

/-- A number that fits is read back. -/
theorem beNat_be_of_lt (h : n < 256 ^ w) : beNat (be w n) = n := by
  rw [beNat_be, Nat.mod_eq_of_lt h]

theorem be_getD {i : Nat} (hi : i < w) (d : UInt8) :
    (be w n).getD i d = UInt8.ofNat (n / 256 ^ (w - 1 - i)) := by
  induction w generalizing i with
  | zero => omega
  | succ w ih =>
    cases i with
    | zero => rfl
    | succ i =>
      rw [be, List.getD_cons_succ, ih (by omega)]
      congr 3
      omega

/-- The high bytes of a small number are zero. -/
theorem be_getD_zero {i : Nat} (d : UInt8) (hi : i < w) (hn : n < 256 ^ (w - 1 - i)) :
    (be w n).getD i d = 0 := by
  rw [be_getD hi, Nat.div_eq_of_lt hn]
  rfl

/-- The bytes of a number that is put together from two. -/
theorem be_append {v a b : Nat} (hb : b < 256 ^ v) :
    be (w + v) (a * 256 ^ v + b) = be w a ++ be v b := by
  induction w with
  | zero =>
    rw [Nat.zero_add]
    -- the bytes of `a` lie above those that are kept
    refine List.ext_getElem (by simp [be]) fun i h1 h2 => ?_
    rw [be_length] at h1
    rw [← List.getD_eq_getElem _ 0 (by simpa using h1), ← List.getD_eq_getElem _ 0 h2]
    rw [show be 0 a ++ be v b = be v b from rfl, be_getD h1, be_getD h1]
    refine UInt8.toNat_inj.1 ?_
    rw [UInt8.toNat_ofNat', UInt8.toNat_ofNat']
    have hv : 256 ^ v = 256 ^ (i + 1) * 256 ^ (v - 1 - i) := by
      rw [← pow_add]
      congr 1
      omega
    rw [hv, show a * (256 ^ (i + 1) * 256 ^ (v - 1 - i)) + b =
      b + a * 256 ^ (i + 1) * 256 ^ (v - 1 - i) by ring,
      Nat.add_mul_div_right _ _ (Nat.pow_pos (by decide)), pow_succ, ← Nat.mul_assoc]
    exact Nat.add_mul_mod_self_right ..
  | succ w ih =>
    rw [show w + 1 + v = (w + v) + 1 by omega, be, ih, be, List.cons_append]
    congr 2
    rw [pow_add, Nat.mul_comm (256 ^ w), ← Nat.div_div_eq_div_mul, Nat.mul_comm a,
      Nat.mul_add_div (Nat.pow_pos (by decide)), Nat.div_eq_of_lt hb, Nat.add_zero]

/-- Only the low bytes are stored. -/
theorem be_mod (w n : Nat) : be w (n % 256 ^ w) = be w n := by
  have hlt : n % 256 ^ w < 256 ^ w := Nat.mod_lt _ (Nat.pow_pos (by decide))
  have h := be_append (w := 0) (a := n / 256 ^ w) hlt
  rw [Nat.zero_add, Nat.mul_comm, Nat.div_add_mod] at h
  exact h.symm

end Numbers

theorem le_align {x a : Nat} (ha : 0 < a) : x ≤ align x a := by
  have h := Nat.div_add_mod (x + a - 1) a
  have hlt := Nat.mod_lt (x + a - 1) ha
  have hc : (x + a - 1) / a * a = a * ((x + a - 1) / a) := Nat.mul_comm _ _
  unfold align
  omega

theorem align_lt {x a : Nat} (ha : 0 < a) : align x a < x + a := by
  have h := Nat.div_mul_le_self (x + a - 1) a
  unfold align
  omega

/-! ## Buffers -/

section Buffers

variable {buf : Buf} {fill : UInt8} {ofs n i : Nat} {bs A B C : List UInt8}

@[simp] theorem peek_length (buf : Buf) (ofs n : Nat) : (peek buf ofs n).length = n := by
  simp [peek]

theorem peek_getElem (hi : i < (peek buf ofs n).length) : (peek buf ofs n)[i] = buf (ofs + i) := by
  simp [peek]

theorem peek_eq_iff (h : bs.length = n) :
    peek buf ofs n = bs ↔ ∀ i, i < n → buf (ofs + i) = bs.getD i 0 := by
  subst h
  constructor
  · intro h i hi
    have hi' : i < (peek buf ofs bs.length).length := by simpa using hi
    rw [← peek_getElem hi', List.getD_eq_getElem _ _ hi]
    simp only [h]
  · intro h
    refine List.ext_getElem (by simp) fun i _ hi => ?_
    rw [peek_getElem, h i hi, List.getD_eq_getElem _ _ hi]

theorem peek_congr {buf' : Buf} (h : ∀ i, i < n → buf (ofs + i) = buf' (ofs + i)) :
    peek buf ofs n = peek buf' ofs n :=
  List.map_congr_left fun i hi => h i (List.mem_range.1 hi)

theorem poke_of_mem (h : ofs ≤ i) (hi : i < ofs + bs.length) :
    poke buf ofs bs i = bs.getD (i - ofs) 0 := if_pos ⟨h, hi⟩

theorem poke_of_not_mem (h : ¬ (ofs ≤ i ∧ i < ofs + bs.length)) : poke buf ofs bs i = buf i :=
  if_neg h

theorem poke_fill (fill : UInt8) (bs : List UInt8) : poke (fun _ => fill) 0 bs = padded fill bs := by
  funext i
  unfold poke padded
  split_ifs with h
  · rw [Nat.sub_zero, List.getD_eq_getElem _ _ (by omega), List.getD_eq_getElem _ _ (by omega)]
  · rw [List.getD_eq_default _ _ (by omega)]

/-- Bytes copied behind the ones a padded buffer holds. -/
theorem poke_padded (fill : UInt8) (A B : List UInt8) :
    poke (padded fill A) A.length B = padded fill (A ++ B) := by
  funext i
  unfold poke padded
  split_ifs with h
  · rw [List.getD_append_right _ _ _ _ h.1, List.getD_eq_getElem _ _ (by omega),
      List.getD_eq_getElem _ _ (by omega)]
  · by_cases hi : i < A.length
    · rw [List.getD_append _ _ _ _ hi]
    · rw [List.getD_eq_default _ _ (by omega),
        List.getD_eq_default _ _ (by rw [List.length_append]; omega)]

theorem peek_padded (fill : UInt8) (A B C : List UInt8) :
    peek (padded fill (A ++ B ++ C)) A.length B.length = B := by
  rw [peek_eq_iff rfl]
  intro i hi
  unfold padded
  rw [List.append_assoc, List.getD_append_right _ _ _ _ (by omega), Nat.add_sub_cancel_left,
    List.getD_append _ _ _ _ hi, List.getD_eq_getElem _ _ hi, List.getD_eq_getElem _ _ hi]

theorem padded_default (h : bs.length ≤ i) : padded fill bs i = fill :=
  List.getD_eq_default _ _ h

end Buffers

/-! ## Bytes at a place -/

/-- The buffer holds the bytes `bs` from `ofs` on. -/
def At (buf : Buf) (ofs : Nat) (bs : List UInt8) : Prop := peek buf ofs bs.length = bs

section Places

variable {buf buf' : Buf} {ofs ofs' n w : Nat} {bs A B : List UInt8}

theorem at_iff : At buf ofs bs ↔ ∀ i, i < bs.length → buf (ofs + i) = bs.getD i 0 :=
  peek_eq_iff rfl

theorem at_append : At buf ofs (A ++ B) ↔ At buf ofs A ∧ At buf (ofs + A.length) B := by
  simp only [at_iff]
  constructor
  · intro h
    refine ⟨fun i hi => ?_, fun i hi => ?_⟩
    · rw [h i (by rw [List.length_append]; omega), List.getD_append _ _ _ _ hi]
    · rw [Nat.add_assoc, h _ (by rw [List.length_append]; omega),
        List.getD_append_right _ _ _ _ (by omega), Nat.add_sub_cancel_left]
  · rintro ⟨hA, hB⟩ i hi
    by_cases hlt : i < A.length
    · rw [hA i hlt, List.getD_append _ _ _ _ hlt]
    · rw [List.length_append] at hi
      have := hB (i - A.length) (by omega)
      rw [show ofs + A.length + (i - A.length) = ofs + i by omega] at this
      rw [this, List.getD_append_right _ _ _ _ (by omega)]

/-- Bytes outside of the place do not matter. -/
theorem At.congr (h : At buf ofs bs)
    (heq : ∀ i, ofs ≤ i → i < ofs + bs.length → buf' i = buf i) : At buf' ofs bs := by
  rw [at_iff] at h ⊢
  intro i hi
  rw [heq _ (by omega) (by omega), h i hi]

theorem at_poke (buf : Buf) (ofs : Nat) (bs : List UInt8) : At (poke buf ofs bs) ofs bs := by
  rw [at_iff]
  intro i hi
  rw [poke_of_mem (by omega) (by omega), Nat.add_sub_cancel_left]

/-- What lies outside of the bytes copied stays. -/
theorem At.poke_disjoint (h : At buf ofs' A) (hd : ofs' + A.length ≤ ofs ∨ ofs + B.length ≤ ofs') :
    At (poke buf ofs B) ofs' A :=
  h.congr fun i hi hlt => poke_of_not_mem (by omega)

theorem at_padded (fill : UInt8) (bs : List UInt8) : At (padded fill bs) 0 bs := by
  have h := peek_padded fill [] bs []
  rwa [List.nil_append, List.append_nil] at h

theorem At.peek_eq (h : At buf ofs bs) (hn : bs.length = n) : peek buf ofs n = bs := hn ▸ h

/-- A number read back. -/
theorem At.beNat_eq (h : At buf ofs (be w n)) (hn : n < 256 ^ w) : beNat (peek buf ofs w) = n := by
  rw [h.peek_eq (be_length w n), beNat_be_of_lt hn]

end Places

end Logfs
