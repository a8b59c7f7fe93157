import Mathlib.Tactic

/-!
# Counting loops

`forUp l n f` runs `f` for `l, l + 1, ..., l + n - 1`, `forDown l n f`
for `l + n, ..., l + 1`.  Both recursions peel off the last turn, so an
invariant indexed by the number of turns already taken is an induction on `n`.
-/

namespace Logfs

variable {σ : Type}

/-- `for (i = l; i < l + n; i++) s = f(i, s);` -/
def forUp (l : Nat) : Nat → (Nat → σ → σ) → σ → σ
  | 0, _, s => s
  | n + 1, f, s => f (l + n) (forUp l n f s)

/-- `for (i = l + n; i > l; i--) s = f(i, s);` -/
def forDown (l : Nat) : Nat → (Nat → σ → σ) → σ → σ
  | 0, _, s => s
  | n + 1, f, s => f (l + 1) (forDown (l + 1) n f s)

@[simp] theorem forUp_zero (l : Nat) (f : Nat → σ → σ) (s : σ) : forUp l 0 f s = s := rfl

theorem forUp_succ (l n : Nat) (f : Nat → σ → σ) (s : σ) :
    forUp l (n + 1) f s = f (l + n) (forUp l n f s) := rfl

@[simp] theorem forDown_zero (l : Nat) (f : Nat → σ → σ) (s : σ) : forDown l 0 f s = s := rfl

theorem forDown_succ (l n : Nat) (f : Nat → σ → σ) (s : σ) :
    forDown l (n + 1) f s = f (l + 1) (forDown (l + 1) n f s) := rfl

/-- Invariant rule: `P i s` before turn `l + i`, `P n` at the end. -/
theorem forUp_inv {P : Nat → σ → Prop} {l n : Nat} {f : Nat → σ → σ} {s : σ} (h0 : P 0 s)
    (step : ∀ i s, i < n → P i s → P (i + 1) (f (l + i) s)) : P n (forUp l n f s) := by
  induction n with
  | zero => exact h0
  | succ n ih =>
    rw [forUp_succ]
    exact step n _ (Nat.lt_succ_self n) (ih fun i s hi => step i s (Nat.lt_succ_of_lt hi))

/-- Invariant rule: `P i s` when the turns `l + n, ..., i + 1` have been taken. -/
theorem forDown_inv {P : Nat → σ → Prop} {l n : Nat} {f : Nat → σ → σ} {s : σ}
    (h0 : P (l + n) s) (step : ∀ i s, l ≤ i → i < l + n → P (i + 1) s → P i (f (i + 1) s)) :
    P l (forDown l n f s) := by
  induction n generalizing l with
  | zero => exact h0
  | succ n ih =>
    rw [forDown_succ]
    refine step l _ (Nat.le_refl _) (by omega) (ih ?_ ?_)
    · rwa [show l + 1 + n = l + (n + 1) by omega]
    · intro i s hlo hi
      exact step i s (by omega) (by omega)

/-! ## Searching loops -/

/-- `for (i = l; i < l + n; i++) if (p(i)) break;`, the value of `i` afterwards. -/
def scan (p : Nat → Bool) (l : Nat) : Nat → Nat
  | 0 => l
  | n + 1 => if p l then l else scan p (l + 1) n

theorem scan_le (p : Nat → Bool) (l n : Nat) : scan p l n ≤ l + n := by
  induction n generalizing l with
  | zero => exact Nat.le_refl _
  | succ n ih =>
    unfold scan
    split
    · omega
    · have := ih (l + 1); omega

/-- The first index satisfying `p`, given one in range below which `p` fails. -/
theorem scan_eq {p : Nat → Bool} {l n i : Nat} (hlo : l ≤ i) (hi : i < l + n) (hp : p i = true)
    (hlt : ∀ j, l ≤ j → j < i → p j = false) : scan p l n = i := by
  induction n generalizing l with
  | zero => omega
  | succ n ih =>
    unfold scan
    by_cases h : l = i
    · subst h; simp [hp]
    · rw [hlt l (Nat.le_refl _) (by omega)]
      exact ih (by omega) (by omega) fun j h1 h2 => hlt j (by omega) h2

/-- The loop runs to its end when `p` fails throughout. -/
theorem scan_eq_end {p : Nat → Bool} {l n : Nat} (h : ∀ j, l ≤ j → j < l + n → p j = false) :
    scan p l n = l + n := by
  induction n generalizing l with
  | zero => rfl
  | succ n ih =>
    unfold scan
    rw [h l (Nat.le_refl _) (by omega), ih fun j h1 h2 => h j (by omega) (by omega)]
    simp only [Bool.false_eq_true, ↓reduceIte]
    omega

theorem scan_not {p : Nat → Bool} {l n j : Nat} (hlo : l ≤ j) (hj : j < scan p l n) :
    p j = false := by
  induction n generalizing l with
  | zero => simp only [scan] at hj; omega
  | succ n ih =>
    unfold scan at hj
    split at hj
    · omega
    · next h =>
      by_cases e : l = j
      · subst e; simpa using h
      · exact ih (by omega) hj

theorem scan_sat {p : Nat → Bool} {l n : Nat} (h : scan p l n < l + n) :
    p (scan p l n) = true := by
  induction n generalizing l with
  | zero => simp only [scan] at h; omega
  | succ n ih =>
    unfold scan at h ⊢
    split
    · assumption
    · next hp => rw [if_neg hp] at h; exact ih (by omega)

end Logfs
