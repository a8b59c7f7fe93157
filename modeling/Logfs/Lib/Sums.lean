import Mathlib.Algebra.BigOperators.Group.List.Basic
import Mathlib.Algebra.BigOperators.Group.Finset.Piecewise
import Mathlib.Tactic

/-!
# Tallies

Sums that are kept up to date: what one update does to the sum of a table, and
the total of a list counted key by key.
-/

namespace Logfs

open Finset

section Table

variable {n i b : Nat} {f g : Nat → Nat}

/-- An update changes the sum of a table by the new value and the one it replaces. -/
theorem sum_update (hi : i < n) (f : Nat → Nat) (b : Nat) :
    ∑ x ∈ range n, Function.update f i b x + f i = ∑ x ∈ range n, f x + b := by
  have h : ∑ x ∈ range n, f x = f i + ∑ x ∈ range n \ {i}, f x := by
    conv_lhs => rw [← Function.update_eq_self i f]
    exact sum_update_of_mem (mem_range.2 hi) f (f i)
  rw [sum_update_of_mem (mem_range.2 hi), h]
  omega

/-- Tables that differ at one place. -/
theorem sum_eq_of_update (hi : i < n) (h : ∀ x, x ≠ i → g x = f x) :
    ∑ x ∈ range n, g x + f i = ∑ x ∈ range n, f x + g i := by
  rw [← sum_update hi f (g i)]
  congr 1
  refine sum_congr rfl fun x _ => ?_
  by_cases hx : x = i
  · subst hx
    rw [Function.update_self]
  · rw [Function.update_of_ne hx, h x hx]

/-- The sum of the first values, as a list. -/
theorem sum_map_range (f : Nat → Nat) (n : Nat) :
    ((List.range n).map f).sum = ∑ x ∈ range n, f x := by
  induction n with
  | zero => rfl
  | succ n ih =>
    rw [List.range_succ, List.map_append, List.sum_append, ih, sum_range_succ]
    simp

end Table

/-- What is filtered out counts nothing. -/
theorem sum_map_filter {α : Type} {p : α → Bool} {w : α → Nat} {l : List α}
    (h : ∀ a ∈ l, ¬ p a → w a = 0) : ((l.filter p).map w).sum = (l.map w).sum := by
  induction l with
  | nil => rfl
  | cons a l ih =>
    have ih := ih fun b hb => h b (List.mem_cons_of_mem _ hb)
    by_cases ha : p a
    · rw [List.filter_cons_of_pos ha, List.map_cons, List.map_cons, List.sum_cons, List.sum_cons, ih]
    · rw [List.filter_cons_of_neg ha, List.map_cons, List.sum_cons, ih, h a List.mem_cons_self ha,
        Nat.zero_add]

section Keys

variable {α K : Type} [DecidableEq K] {key : α → K} {w : α → Nat}

/-- A weight counted at its own key. -/
theorem sum_ite_key {k : K} {v : Nat} {keys : List K} (hd : keys.Nodup) (hk : k ∈ keys) :
    (keys.map fun k' => if k = k' then v else 0).sum = v := by
  induction keys with
  | nil => cases hk
  | cons k' keys ih =>
    obtain ⟨hnot, hd⟩ := List.nodup_cons.1 hd
    rw [List.map_cons, List.sum_cons]
    rcases List.mem_cons.1 hk with rfl | hmem
    · have hzero : (keys.map fun k' => if k = k' then v else 0) = keys.map fun _ => 0 :=
        List.map_congr_left fun k' hk' => if_neg (by rintro rfl; exact hnot hk')
      rw [if_pos rfl, hzero]
      simp
    · rw [if_neg (by rintro rfl; exact hnot hmem), ih hd hmem, Nat.zero_add]

/-- The total of a list, counted key by key. -/
theorem sum_by_key (keys : List K) (hd : keys.Nodup) (l : List α) (hl : ∀ a ∈ l, key a ∈ keys) :
    (keys.map fun k => ((l.filter (key · = k)).map w).sum).sum = (l.map w).sum := by
  induction l with
  | nil => simp
  | cons a l ih =>
    have hcount := sum_ite_key (v := w a) hd (hl a List.mem_cons_self)
    rw [List.map_cons, List.sum_cons, ← ih fun b hb => hl b (List.mem_cons_of_mem _ hb), ← hcount,
      ← List.sum_map_add]
    congr 1
    refine List.map_congr_left fun k _ => ?_
    rw [List.filter_cons]
    by_cases hk : key a = k
    · simp [hk]
    · simp [hk]

end Keys

end Logfs
