import Logfs.Btree.Slots
import Mathlib.Data.List.GetD

/-!
# The pairs a node holds

`Rep geo node es`: the used slots of `node` are a prefix and hold the pairs
`es`, every other slot is all zero.  The loops of `btree.c` become operations
on lists: insertion at a position, removal, `take` and `drop`, concatenation.
-/

namespace Logfs.Btree

/-- The pairs of a node, first slot first. -/
abbrev Entries := List (Key × Nat)

/-- `node` holds exactly the pairs `es`. -/
structure Rep (geo : Geo) (node : Node) (es : Entries) : Prop where
  length_le : es.length ≤ geo.noPairs
  slot : ∀ i, i < geo.noPairs → pair geo node i = es.getD i (zeroKey geo, 0)
  entry : ∀ e ∈ es, e.1.length = geo.keylen ∧ e.2 ≠ 0

namespace Rep

variable {geo : Geo} {node left right : Node} {es A B L M R : Entries} {e : Key × Nat}

theorem bkey (h : Rep geo node es) {i : Nat} (hi : i < es.length) :
    bkey geo node i = (es[i]).1 := by
  have := h.slot i (by have := h.length_le; omega)
  rw [List.getD_eq_getElem _ _ hi] at this
  exact congrArg Prod.fst this

theorem bval (h : Rep geo node es) {i : Nat} (hi : i < es.length) :
    bval geo node i = (es[i]).2 := by
  have := h.slot i (by have := h.length_le; omega)
  rw [List.getD_eq_getElem _ _ hi] at this
  exact congrArg Prod.snd this

theorem bval_unused (h : Rep geo node es) {i : Nat} (hi : es.length ≤ i) (hn : i < geo.noPairs) :
    Btree.bval geo node i = 0 := by
  have := h.slot i hn
  rw [List.getD_eq_default _ _ hi] at this
  exact congrArg Prod.snd this

theorem bkey_unused (h : Rep geo node es) {i : Nat} (hi : es.length ≤ i) (hn : i < geo.noPairs) :
    Btree.bkey geo node i = zeroKey geo := by
  have := h.slot i hn
  rw [List.getD_eq_default _ _ hi] at this
  exact congrArg Prod.fst this

theorem bkey_append (h : Rep geo node (A ++ e :: B)) : Btree.bkey geo node A.length = e.1 := by
  rw [h.bkey (by simp)]
  simp

theorem bval_append (h : Rep geo node (A ++ e :: B)) : Btree.bval geo node A.length = e.2 := by
  rw [h.bval (by simp)]
  simp

theorem bval_ne_zero (h : Rep geo node es) {i : Nat} (hi : i < es.length) :
    Btree.bval geo node i ≠ 0 := by
  rw [h.bval hi]
  exact (h.entry _ (List.getElem_mem hi)).2

/-- `getfill` counts the used slots, from any of them on. -/
theorem getfill (h : Rep geo node es) {start : Nat} (hs : start ≤ es.length) :
    getfill geo node start = es.length := by
  have hle := h.length_le
  unfold Btree.getfill
  by_cases hfull : es.length = geo.noPairs
  · rw [scan_eq_end, hfull]
    · omega
    · intro j _ hj
      simpa using h.bval_ne_zero (i := j) (by omega)
  · apply scan_eq hs (by omega)
    · simpa using h.bval_unused (Nat.le_refl _) (by omega)
    · intro j _ hj
      simpa using h.bval_ne_zero hj

/-- `getpos` is the number of keys above `k`, used slots only. -/
theorem scan_pos (h : Rep geo node (A ++ B)) {k : Key} (hk : k.length = geo.keylen)
    (hA : ∀ e ∈ A, k < e.1) (hB : ∀ e ∈ B.head?, e.1 ≤ k) :
    scan (fun i => decide (keycmp geo node i k ≤ 0)) 0 geo.noPairs = A.length := by
  have hle := h.length_le
  rw [List.length_append] at hle
  have hlt : ∀ j, 0 ≤ j → j < A.length → decide (keycmp geo node j k ≤ 0) = false := by
    intro j _ hj
    have hj' : j < (A ++ B).length := by rw [List.length_append]; omega
    have hkey : Btree.bkey geo node j = (A[j]).1 := by
      rw [h.bkey hj', List.getElem_append_left hj]
    rw [decide_eq_false_iff_not, keycmp, longcmp_le_zero (by simp [hk]), hkey, not_le]
    exact hA _ (List.getElem_mem hj)
  by_cases hfull : A.length = geo.noPairs
  · rw [scan_eq_end, hfull]
    · omega
    · intro j h0 hj
      exact hlt j h0 (by omega)
  · apply scan_eq (Nat.zero_le _) (by omega) _ hlt
    rw [decide_eq_true_eq, keycmp, longcmp_le_zero (by simp [hk])]
    cases B with
    | nil =>
      rw [h.bkey_unused (by simp) (by omega)]
      exact zeroKey_le hk
    | cons b B =>
      rw [h.bkey_append]
      exact hB b (by simp)

theorem getpos (h : Rep geo node (A ++ B)) {k : Key} (hk : k.length = geo.keylen)
    (hA : ∀ e ∈ A, k < e.1) (hB : ∀ e ∈ B.head?, e.1 ≤ k) : getpos geo node k = A.length :=
  h.scan_pos hk hA hB

/-! ## Updates -/

theorem zero : Rep geo zeroNode [] :=
  ⟨Nat.zero_le _, fun i _ => by rw [pair_zeroNode]; rfl, by simp⟩

/-- Shift and insert. -/
theorem insert (h : Rep geo node (A ++ B)) (hroom : (A ++ B).length < geo.noPairs)
    (he : e.1.length = geo.keylen ∧ e.2 ≠ 0) :
    Rep geo (setval geo (setkey geo (shiftInsert geo node A.length (A ++ B).length) e.1 A.length)
      e.2 A.length) (A ++ e :: B) := by
  rw [List.length_append] at hroom
  refine ⟨by simp only [List.length_append, List.length_cons]; omega, ?_, ?_⟩
  · intro i hi
    rw [pair_set he.1 hi (by omega), pair_shiftInsert (by simp; omega) (by simp) hi]
    rcases Nat.lt_trichotomy i A.length with hlt | rfl | hgt
    · rw [if_neg (by omega), if_neg (by omega), h.slot i hi, List.getD_append _ _ _ _ hlt,
        List.getD_append _ _ _ _ hlt]
    · rw [if_pos rfl, List.getD_append_right _ _ _ _ (Nat.le_refl _), Nat.sub_self]
      rfl
    · rw [if_neg (by omega), List.getD_append_right _ _ _ _ (by omega)]
      obtain ⟨j, hj⟩ : ∃ j, i = A.length + j + 1 := ⟨i - A.length - 1, by omega⟩
      subst hj
      rw [show A.length + j + 1 - A.length = j + 1 by omega, List.getD_cons_succ,
        Nat.add_sub_cancel]
      split_ifs with hfill
      · rw [h.slot _ (by omega), List.getD_append_right _ _ _ _ (by omega),
          Nat.add_sub_cancel_left]
      · rw [List.length_append] at hfill
        rw [h.slot _ hi, List.getD_eq_default _ _ (by simp; omega),
          List.getD_eq_default _ _ (by omega)]
  · intro x hx
    simp only [List.mem_append, List.mem_cons] at hx
    rcases hx with hx | rfl | hx
    · exact h.entry x (by simp [hx])
    · exact he
    · exact h.entry x (by simp [hx])

/-- Remove and shift. -/
theorem remove (h : Rep geo node (A ++ e :: B)) :
    Rep geo (clearpair geo (shiftRemove geo node A.length (A ++ e :: B).length)
      ((A ++ e :: B).length - 1)) (A ++ B) := by
  have hle := h.length_le
  simp only [List.length_append, List.length_cons] at hle ⊢
  rw [show A.length + (B.length + 1) - 1 = A.length + B.length by omega]
  refine ⟨by simp only [List.length_append]; omega, ?_, ?_⟩
  · intro i hi
    rw [pair_clearpair hi (by omega), pair_shiftRemove hle hi]
    by_cases hlast : i = A.length + B.length
    · rw [if_pos hlast, List.getD_eq_default _ _ (by simp; omega)]
    · rw [if_neg hlast]
      by_cases hlt : i < A.length
      · rw [if_neg (by omega), h.slot i hi, List.getD_append _ _ _ _ hlt,
          List.getD_append _ _ _ _ hlt]
      · obtain ⟨j, hj⟩ : ∃ j, i = A.length + j := ⟨i - A.length, by omega⟩
        subst hj
        rw [List.getD_append_right _ _ _ _ (by omega), Nat.add_sub_cancel_left]
        split_ifs with hin
        · rw [h.slot _ (by omega), List.getD_append_right _ _ _ _ (by omega),
            show A.length + j + 1 - A.length = j + 1 by omega, List.getD_cons_succ]
        · rw [h.slot _ hi, List.getD_eq_default _ _ (by simp; omega),
            List.getD_eq_default _ _ (by omega)]
  · intro x hx
    apply h.entry x
    simp only [List.mem_append, List.mem_cons] at hx ⊢
    tauto

theorem split_fst {new : Node} (h : Rep geo node es) (hnew : Rep geo new [])
    (hfull : es.length = geo.noPairs) :
    Rep geo (splitNodes geo new node).1 (es.take (geo.noPairs / 2)) := by
  have key := pair_splitLoop new node
    (show geo.noPairs / 2 + geo.noPairs / 2 ≤ geo.noPairs by omega)
  refine ⟨by simp; omega, ?_, fun e he => h.entry e (List.mem_of_mem_take he)⟩
  intro i hi
  have h1 : pair geo (splitNodes geo new node).1 i =
      if i < geo.noPairs / 2 then pair geo node i else pair geo new i := by
    unfold splitNodes
    simp only
    split_ifs <;> simp_all
  rw [h1]
  split_ifs with hlt
  · rw [h.slot i hi, List.getD_eq_getElem _ _ (by omega), List.getD_eq_getElem _ _ (by simp; omega),
      List.getElem_take]
  · rw [hnew.slot i hi, List.getD_eq_default [] _ (by simp),
      List.getD_eq_default _ _ (by simp; omega)]

theorem split_snd (h : Rep geo node es) (new : Node) (hfull : es.length = geo.noPairs)
    (htwo : 2 ≤ geo.noPairs) :
    Rep geo (splitNodes geo new node).2 (es.drop (geo.noPairs / 2)) := by
  have key := pair_splitLoop new node
    (show geo.noPairs / 2 + geo.noPairs / 2 ≤ geo.noPairs by omega)
  refine ⟨by simp; omega, ?_, fun e he => h.entry e (List.mem_of_mem_drop he)⟩
  intro i hi
  have hdrop : ∀ j, geo.noPairs / 2 + j < geo.noPairs →
      (es.drop (geo.noPairs / 2)).getD j (zeroKey geo, 0) = pair geo node (geo.noPairs / 2 + j) := by
    intro j hj
    rw [h.slot _ hj, List.getD_eq_getElem _ _ (by simp; omega), List.getD_eq_getElem _ _ (by omega),
      List.getElem_drop]
  have hend : ∀ j, geo.noPairs ≤ geo.noPairs / 2 + j →
      (es.drop (geo.noPairs / 2)).getD j (zeroKey geo, 0) = (zeroKey geo, 0) := by
    intro j hj
    exact List.getD_eq_default _ _ (by simp; omega)
  unfold splitNodes
  simp only
  by_cases hodd : geo.noPairs % 2 = 1
  · rw [if_pos hodd]
    simp only
    rw [pair_clearpair hi (by omega), pair_movepair hi (by omega)]
    by_cases hl : i = geo.noPairs - 1
    · rw [if_pos hl, hend i (by omega)]
    · rw [if_neg hl]
      by_cases hm : i = geo.noPairs / 2
      · rw [if_pos hm, (key (geo.noPairs - 1) (by omega)).2, if_neg (by omega), if_neg (by omega),
          hdrop i (by omega), show geo.noPairs - 1 = geo.noPairs / 2 + i by omega]
      · rw [if_neg hm, (key i hi).2]
        split_ifs with h1 h2
        · rw [hdrop i (by omega), Nat.add_comm]
        · rw [hend i (by omega)]
        · omega
  · rw [if_neg hodd, (key i hi).2]
    split_ifs with h1 h2
    · rw [hdrop i (by omega), Nat.add_comm]
    · rw [hend i (by omega)]
    · omega

theorem merge (hl : Rep geo left L) (hr : Rep geo right R)
    (h : L.length + R.length ≤ geo.noPairs) :
    Rep geo (mergeNodes geo left L.length right R.length) (L ++ R) := by
  refine ⟨by simpa using h, ?_, ?_⟩
  · intro i hi
    rw [pair_mergeNodes _ _ h hi]
    split_ifs with hin
    · rw [hr.slot _ (by omega), List.getD_append_right _ _ _ _ hin.1]
    · rw [hl.slot i hi]
      by_cases hlt : i < L.length
      · rw [List.getD_append _ _ _ _ hlt]
      · rw [List.getD_eq_default _ _ (by omega), List.getD_eq_default _ _ (by simp; omega)]
  · intro e he
    rcases List.mem_append.1 he with he | he
    · exact hl.entry e he
    · exact hr.entry e he

/-- The left node of `steal_l`. -/
theorem clear_tail (h : Rep geo node (L ++ M)) :
    Rep geo (forUp ((L ++ M).length - M.length) M.length (fun i l => clearpair geo l i) node) L := by
  have hle := h.length_le
  simp only [List.length_append] at hle ⊢
  rw [Nat.add_sub_cancel]
  refine ⟨by omega, ?_, fun e he => h.entry e (by simp [he])⟩
  intro i hi
  rw [pair_clearRange hle hi]
  split_ifs with hin
  · rw [List.getD_eq_default _ _ hin.1]
  · rw [h.slot i hi]
    by_cases hlt : i < L.length
    · rw [List.getD_append _ _ _ _ hlt]
    · rw [List.getD_eq_default _ _ (by simp; omega), List.getD_eq_default _ _ (by omega)]

/-- The right node of `steal_l`. -/
theorem steal_front (hl : Rep geo left (L ++ M)) (hr : Rep geo right R)
    (h : R.length + M.length ≤ geo.noPairs) :
    Rep geo (forUp 0 M.length (fun i r => movepair geo r left i ((L ++ M).length - M.length + i))
      (forDown 0 R.length (fun i r => movepair geo r r (i - 1 + M.length) (i - 1)) right))
      (M ++ R) := by
  have hle := hl.length_le
  refine ⟨by simp; omega, ?_, ?_⟩
  · intro i hi
    rw [pair_stealL_right h hi]
    simp only [List.length_append] at hle ⊢
    rw [Nat.add_sub_cancel]
    split_ifs with h1 h2
    · rw [hl.slot _ (by omega), List.getD_append_right _ _ _ _ (by omega), Nat.add_sub_cancel_left,
        List.getD_append _ _ _ _ h1]
    · rw [hr.slot _ (by omega), List.getD_append_right _ _ _ _ (by omega)]
    · rw [hr.slot _ hi, List.getD_eq_default _ _ (by omega), List.getD_eq_default _ _ (by simp; omega)]
  · intro e he
    rcases List.mem_append.1 he with he | he
    · exact hl.entry e (by simp [he])
    · exact hr.entry e he

/-- The left node of `steal_r`. -/
theorem steal_back (hl : Rep geo left L) (hr : Rep geo right (M ++ R))
    (h : L.length + M.length ≤ geo.noPairs) :
    Rep geo (forUp 0 M.length (fun i l => movepair geo l right (L.length + i) i) left) (L ++ M) := by
  have hle := hr.length_le
  refine ⟨by simpa using h, ?_, ?_⟩
  · intro i hi
    have := pair_mergeNodes left right h hi
    unfold mergeNodes at this
    rw [this]
    split_ifs with hin
    · rw [hr.slot _ (by omega), List.getD_append _ _ _ _ (by omega),
        List.getD_append_right _ _ _ _ hin.1]
    · rw [hl.slot i hi]
      by_cases hlt : i < L.length
      · rw [List.getD_append _ _ _ _ hlt]
      · rw [List.getD_eq_default _ _ (by omega), List.getD_eq_default _ _ (by simp; omega)]
  · intro e he
    rcases List.mem_append.1 he with he | he
    · exact hl.entry e he
    · exact hr.entry e (by simp [he])

/-- The right node of `steal_r`. -/
theorem drop_front (h : Rep geo node (M ++ R)) :
    Rep geo (forUp ((M ++ R).length - M.length) M.length (fun i r => clearpair geo r i)
      (forUp M.length ((M ++ R).length - M.length)
        (fun i r => movepair geo r r (i - M.length) i) node)) R := by
  have hle := h.length_le
  refine ⟨by simp at hle; omega, ?_, fun e he => h.entry e (by simp [he])⟩
  intro i hi
  rw [pair_clearRange (by simp at hle ⊢; omega) hi, pair_stealR_right hle (by simp) hi]
  simp only [List.length_append] at hle ⊢
  rw [Nat.add_sub_cancel_left]
  split_ifs with h1 h2
  · rw [List.getD_eq_default _ _ h1.1]
  · rw [h.slot _ (by omega), List.getD_append_right _ _ _ _ (by omega), Nat.add_sub_cancel]
  · rw [h.slot _ hi, List.getD_eq_default _ _ (by simp; omega), List.getD_eq_default _ _ (by omega)]

/-- Replacing the key of a pair. -/
theorem setkey {k : Key} (h : Rep geo node (A ++ e :: B)) (hk : k.length = geo.keylen) :
    Rep geo (setkey geo node k A.length) (A ++ (k, e.2) :: B) := by
  have hle := h.length_le
  simp only [List.length_append, List.length_cons] at hle
  refine ⟨by simpa using hle, ?_, ?_⟩
  · intro i hi
    rw [pair_setkey hk (by omega), h.slot i hi]
    rcases Nat.lt_trichotomy i A.length with hlt | rfl | hgt
    · rw [if_neg (by omega), List.getD_append _ _ _ _ hlt, List.getD_append _ _ _ _ hlt]
    · rw [if_pos rfl, List.getD_append_right _ _ _ _ (Nat.le_refl _),
        List.getD_append_right _ _ _ _ (Nat.le_refl _), Nat.sub_self]
      rfl
    · rw [if_neg (by omega), List.getD_append_right _ _ _ _ (by omega),
        List.getD_append_right _ _ _ _ (by omega)]
      obtain ⟨j, hj⟩ : ∃ j, i - A.length = j + 1 := ⟨i - A.length - 1, by omega⟩
      rw [hj, List.getD_cons_succ, List.getD_cons_succ]
  · intro x hx
    simp only [List.mem_append, List.mem_cons] at hx
    rcases hx with hx | rfl | hx
    · exact h.entry x (by simp [hx])
    · exact ⟨hk, (h.entry e (by simp)).2⟩
    · exact h.entry x (by simp [hx])

/-- Replacing the value of a pair. -/
theorem setval {v : Nat} (h : Rep geo node (A ++ e :: B)) (hv : v ≠ 0) :
    Rep geo (setval geo node v A.length) (A ++ (e.1, v) :: B) := by
  have hle := h.length_le
  simp only [List.length_append, List.length_cons] at hle
  refine ⟨by simpa using hle, ?_, ?_⟩
  · intro i hi
    rw [pair_setval hi, h.slot i hi]
    rcases Nat.lt_trichotomy i A.length with hlt | rfl | hgt
    · rw [if_neg (by omega), List.getD_append _ _ _ _ hlt, List.getD_append _ _ _ _ hlt]
    · rw [if_pos rfl, List.getD_append_right _ _ _ _ (Nat.le_refl _),
        List.getD_append_right _ _ _ _ (Nat.le_refl _), Nat.sub_self]
      rfl
    · rw [if_neg (by omega), List.getD_append_right _ _ _ _ (by omega),
        List.getD_append_right _ _ _ _ (by omega)]
      obtain ⟨j, hj⟩ : ∃ j, i - A.length = j + 1 := ⟨i - A.length - 1, by omega⟩
      rw [hj, List.getD_cons_succ, List.getD_cons_succ]
  · intro x hx
    simp only [List.mem_append, List.mem_cons] at hx
    rcases hx with hx | rfl | hx
    · exact h.entry x (by simp [hx])
    · exact ⟨(h.entry e (by simp)).1, hv⟩
    · exact h.entry x (by simp [hx])

end Rep

end Logfs.Btree
