import Logfs.Btree.Node
import Mathlib.Tactic

/-!
# Nodes as lists of pairs

`Rep geo node es` says that the flat array `node` holds the pairs `es`: they
fill a prefix of the slots, their values are not zero, and every other slot is
all zero.  Each loop over the words of a node is shown here to be an operation
on lists of pairs, and the searches to be positions in them; no later module
looks at the words of a node again.
-/

namespace Logfs.Btree

/-! ## Order of keys -/

section Order

theorem longcmp_trichotomy : ∀ {a b : Key}, a.length = b.length →
    (longcmp a b = -1 ∧ a < b) ∨ (longcmp a b = 0 ∧ a = b) ∨ (longcmp a b = 1 ∧ b < a)
  | [], [], _ => Or.inr (Or.inl ⟨rfl, rfl⟩)
  | x :: a, y :: b, h => by
    have ih := longcmp_trichotomy (a := a) (b := b) (by simpa using h)
    unfold longcmp
    rcases Nat.lt_trichotomy x y with hxy | rfl | hxy
    · exact Or.inl ⟨by simp [hxy], by simp [List.cons_lt_cons_iff, hxy]⟩
    · simpa [List.cons_lt_cons_iff] using ih
    · refine Or.inr (Or.inr ⟨?_, by simp [List.cons_lt_cons_iff, hxy]⟩)
      simp [hxy, Nat.not_lt_of_gt hxy]
  | [], _ :: _, h => by simp at h
  | _ :: _, [], h => by simp at h

theorem longcmp_le_zero {a b : Key} (h : a.length = b.length) : longcmp a b ≤ 0 ↔ a ≤ b := by
  rcases longcmp_trichotomy h with ⟨e, hlt⟩ | ⟨e, rfl⟩ | ⟨e, hlt⟩
  · simp [e, le_of_lt hlt]
  · simp [e]
  · simp [e, hlt]

theorem longcmp_eq_zero {a b : Key} (h : a.length = b.length) : longcmp a b = 0 ↔ a = b := by
  rcases longcmp_trichotomy h with ⟨e, hlt⟩ | ⟨e, rfl⟩ | ⟨e, hlt⟩
  · simp [e, ne_of_lt hlt]
  · simp [e]
  · simp [e, ne_of_gt hlt]

@[simp] theorem zeroKey_length (geo : Geo) : (zeroKey geo).length = geo.keylen := by
  simp [zeroKey]

theorem zeroKey_le {geo : Geo} {k : Key} (h : k.length = geo.keylen) : zeroKey geo ≤ k := by
  have aux : ∀ (n : Nat) (k : Key), k.length = n → List.replicate n 0 ≤ k := by
    intro n
    induction n with
    | zero => intro k hk; rw [List.length_eq_zero_iff.1 hk]; rfl
    | succ n ih =>
      intro k hk
      cases k with
      | nil => simp at hk
      | cons x k =>
        have := ih k (by simpa using hk)
        rw [List.replicate_succ, ← not_lt, List.cons_lt_cons_iff]
        rintro (hx | ⟨-, hx⟩)
        · exact Nat.not_lt_zero x hx
        · exact absurd hx (not_lt.2 this)
  exact aux _ _ h

@[simp] theorem bkey_length (geo : Geo) (node : Node) (n : Nat) :
    (bkey geo node n).length = geo.keylen := by
  simp [bkey]

end Order

/-! ## The pair in a slot -/

section Pair

variable {geo : Geo}

/-- The pair in slot `i` of a node. -/
def pair (geo : Geo) (node : Node) (i : Nat) : Key × Nat := (bkey geo node i, bval geo node i)

theorem key_word_iff {l i n j : Nat} (hj : j < l) :
    (n * l ≤ i * l + j ∧ i * l + j < n * l + l) ↔ i = n := by
  constructor
  · rintro ⟨h1, h2⟩
    have a : n < i + 1 := by
      by_contra hc
      have : (i + 1) * l ≤ n * l := Nat.mul_le_mul_right l (by omega)
      rw [Nat.add_mul] at this
      omega
    have b : i < n + 1 := by
      by_contra hc
      have : (n + 1) * l ≤ i * l := Nat.mul_le_mul_right l (by omega)
      rw [Nat.add_mul] at this
      omega
    omega
  · rintro rfl
    omega

theorem key_word_lt {l i n j : Nat} (hj : j < l) (hi : i < n) : i * l + j < n * l := by
  have : (i + 1) * l ≤ n * l := Nat.mul_le_mul_right l hi
  rw [Nat.add_mul] at this
  omega

theorem bkey_setkey {node : Node} {k : Key} {i n : Nat} (hk : k.length = geo.keylen) :
    bkey geo (setkey geo node k n) i = if i = n then k else bkey geo node i := by
  unfold bkey setkey
  split
  · next h =>
    subst h
    apply List.ext_getElem (by simp [hk])
    intro j h1 h2
    simp only [List.length_map, List.length_range] at h1
    simp [h1, hk]
  · next h =>
    apply List.map_congr_left
    intro j hj
    rw [List.mem_range] at hj
    rw [if_neg (fun hc => h ((key_word_iff hj).1 hc))]

theorem bkey_setval {node : Node} {v i n : Nat} (hi : i < geo.noPairs) :
    bkey geo (setval geo node v n) i = bkey geo node i := by
  unfold bkey setval
  apply List.map_congr_left
  intro j hj
  rw [List.mem_range] at hj
  have := key_word_lt (n := geo.noPairs) hj hi
  rw [if_neg (by omega)]

theorem bval_setkey {node : Node} {k : Key} {i n : Nat} (hn : n < geo.noPairs) :
    bval geo (setkey geo node k n) i = bval geo node i := by
  unfold bval setkey
  rw [if_neg]
  rintro ⟨-, h⟩
  have : (n + 1) * geo.keylen ≤ geo.noPairs * geo.keylen := Nat.mul_le_mul_right _ hn
  rw [Nat.add_mul] at this
  omega

theorem bval_setval {node : Node} {v i n : Nat} :
    bval geo (setval geo node v n) i = if i = n then v else bval geo node i := by
  unfold bval setval
  by_cases h : i = n
  · simp [h]
  · rw [if_neg (by omega), if_neg h]

theorem pair_set {node : Node} {k : Key} {v i n : Nat} (hk : k.length = geo.keylen)
    (hi : i < geo.noPairs) (hn : n < geo.noPairs) :
    pair geo (setval geo (setkey geo node k n) v n) i = if i = n then (k, v) else pair geo node i := by
  unfold pair
  rw [bkey_setval hi, bkey_setkey hk, bval_setval, bval_setkey hn]
  split <;> rfl

theorem pair_setkey {node : Node} {k : Key} {i n : Nat} (hk : k.length = geo.keylen)
    (hn : n < geo.noPairs) :
    pair geo (setkey geo node k n) i =
      if i = n then (k, (pair geo node i).2) else pair geo node i := by
  unfold pair
  rw [bkey_setkey hk, bval_setkey hn]
  split <;> rfl

theorem pair_setval {node : Node} {v i n : Nat} (hi : i < geo.noPairs) :
    pair geo (setval geo node v n) i =
      if i = n then ((pair geo node i).1, v) else pair geo node i := by
  unfold pair
  rw [bkey_setval hi, bval_setval]
  split <;> rfl

theorem pair_clearpair {node : Node} {i n : Nat} (hi : i < geo.noPairs) (hn : n < geo.noPairs) :
    pair geo (clearpair geo node n) i = if i = n then (zeroKey geo, 0) else pair geo node i :=
  pair_set (zeroKey_length geo) hi hn

theorem pair_movepair {dst src : Node} {m i j : Nat} (hm : m < geo.noPairs) (hi : i < geo.noPairs) :
    pair geo (movepair geo dst src i j) m = if m = i then pair geo src j else pair geo dst m :=
  pair_set (bkey_length geo src j) hm hi

theorem pair_zeroNode (i : Nat) : pair geo zeroNode i = (zeroKey geo, 0) := by
  simp [pair, bkey, bval, zeroNode, zeroKey, List.map_const']

end Pair

/-! ## Effects of the loops on slots -/

section Loops

variable {geo : Geo} {m : Nat}

theorem pair_shiftInsert {node : Node} {pos fill : Nat} (hfill : fill < geo.noPairs)
    (hpos : pos ≤ fill) (hm : m < geo.noPairs) :
    pair geo (shiftInsert geo node pos fill) m =
      if pos < m ∧ m ≤ fill then pair geo node (m - 1) else pair geo node m := by
  have key := forDown_inv (l := pos) (n := fill - pos)
    (f := fun i n => movepair geo n n i (i - 1)) (s := node)
    (P := fun i n => ∀ m, m < geo.noPairs →
      pair geo n m = if i < m ∧ m ≤ fill then pair geo node (m - 1) else pair geo node m)
    (by intro m _; rw [if_neg (by omega)])
    (by
      intro i n hlo hi ih m hm
      rw [pair_movepair hm (by omega)]
      by_cases h : m = i + 1
      · subst h
        rw [if_pos rfl, if_pos (by omega), Nat.add_sub_cancel, ih i (by omega), if_neg (by omega)]
      · rw [if_neg h, ih m hm]
        split_ifs <;> first | rfl | omega)
  exact key m hm

theorem pair_shiftRemove {node : Node} {pos fill : Nat} (hfill : fill ≤ geo.noPairs)
    (hm : m < geo.noPairs) :
    pair geo (shiftRemove geo node pos fill) m =
      if pos ≤ m ∧ m + 1 < fill then pair geo node (m + 1) else pair geo node m := by
  have key := forUp_inv (l := pos) (n := fill - 1 - pos)
    (f := fun i n => movepair geo n n i (i + 1)) (s := node)
    (P := fun i n => ∀ m, m < geo.noPairs →
      pair geo n m = if pos ≤ m ∧ m < pos + i then pair geo node (m + 1) else pair geo node m)
    (by intro m _; rw [if_neg (by omega)])
    (by
      intro i n hi ih m hm
      rw [pair_movepair hm (by omega)]
      by_cases h : m = pos + i
      · subst h
        rw [if_pos rfl, if_pos (by omega), ih _ (by omega), if_neg (by omega)]
      · rw [if_neg h, ih m hm]
        split_ifs <;> first | rfl | omega)
  unfold shiftRemove
  rw [key m hm]
  by_cases h : pos ≤ m ∧ m + 1 < fill
  · rw [if_pos (by omega), if_pos h]
  · rw [if_neg (by omega), if_neg h]

theorem pair_mergeNodes (left right : Node) {lfill rfill : Nat}
    (h : lfill + rfill ≤ geo.noPairs) (hm : m < geo.noPairs) :
    pair geo (mergeNodes geo left lfill right rfill) m =
      if lfill ≤ m ∧ m < lfill + rfill then pair geo right (m - lfill) else pair geo left m := by
  have key := forUp_inv (l := 0) (n := rfill)
    (f := fun i l => movepair geo l right (lfill + i) i) (s := left)
    (P := fun i l => ∀ m, m < geo.noPairs →
      pair geo l m =
        if lfill ≤ m ∧ m < lfill + i then pair geo right (m - lfill) else pair geo left m)
    (by intro m _; rw [if_neg (by omega)])
    (by
      intro i l hi ih m hm
      rw [Nat.zero_add, pair_movepair hm (by omega)]
      by_cases h : m = lfill + i
      · subst h
        rw [if_pos rfl, if_pos (by omega), Nat.add_sub_cancel_left]
      · rw [if_neg h, ih m hm]
        split_ifs <;> first | rfl | omega)
  exact key m hm

theorem pair_clearRange {node : Node} {lo n : Nat} (h : lo + n ≤ geo.noPairs)
    (hm : m < geo.noPairs) :
    pair geo (forUp lo n (fun i l => clearpair geo l i) node) m =
      if lo ≤ m ∧ m < lo + n then (zeroKey geo, 0) else pair geo node m := by
  have key := forUp_inv (l := lo) (n := n) (f := fun i l => clearpair geo l i) (s := node)
    (P := fun i l => ∀ m, m < geo.noPairs →
      pair geo l m = if lo ≤ m ∧ m < lo + i then (zeroKey geo, 0) else pair geo node m)
    (by intro m _; rw [if_neg (by omega)])
    (by
      intro i l hi ih m hm
      rw [pair_clearpair hm (by omega)]
      by_cases h : m = lo + i
      · rw [if_pos h, if_pos (by omega)]
      · rw [if_neg h, ih m hm]
        split_ifs <;> first | rfl | omega)
  exact key m hm

/-- The first two loops of `steal_l`, on the right node. -/
theorem pair_stealL_right {left right : Node} {lfill rfill n : Nat}
    (h : rfill + n ≤ geo.noPairs) (hm : m < geo.noPairs) :
    pair geo (forUp 0 n (fun i r => movepair geo r left i (lfill - n + i))
      (forDown 0 rfill (fun i r => movepair geo r r (i - 1 + n) (i - 1)) right)) m =
      if m < n then pair geo left (lfill - n + m)
      else if m < n + rfill then pair geo right (m - n) else pair geo right m := by
  have shifted := forDown_inv (l := 0) (n := rfill)
    (f := fun i r => movepair geo r r (i - 1 + n) (i - 1)) (s := right)
    (P := fun i r => ∀ m, m < geo.noPairs →
      pair geo r m =
        if i + n ≤ m ∧ m < rfill + n then pair geo right (m - n) else pair geo right m)
    (by intro m _; rw [if_neg (by omega)])
    (by
      intro i r _ hi ih m hm
      rw [Nat.add_sub_cancel, pair_movepair hm (by omega)]
      by_cases h : m = i + n
      · subst h
        rw [if_pos rfl, if_pos (by omega), Nat.add_sub_cancel, ih i (by omega), if_neg (by omega)]
      · rw [if_neg h, ih m hm]
        split_ifs <;> first | rfl | omega)
  have moved := forUp_inv (l := 0) (n := n)
    (f := fun i r => movepair geo r left i (lfill - n + i))
    (s := forDown 0 rfill (fun i r => movepair geo r r (i - 1 + n) (i - 1)) right)
    (P := fun i r => ∀ m, m < geo.noPairs →
      pair geo r m = if m < i then pair geo left (lfill - n + m)
        else if n ≤ m ∧ m < rfill + n then pair geo right (m - n) else pair geo right m)
    (by
      intro m hm
      rw [shifted m hm, if_neg (Nat.not_lt_zero m), Nat.zero_add])
    (by
      intro i r hi ih m hm
      rw [Nat.zero_add, pair_movepair hm (by omega)]
      by_cases h : m = i
      · subst h
        rw [if_pos rfl, if_pos (by omega)]
      · rw [if_neg h, ih m hm]
        split_ifs <;> first | rfl | omega)
  rw [moved m hm]
  by_cases h1 : m < n
  · rw [if_pos h1, if_pos h1]
  · rw [if_neg h1, if_neg h1]
    by_cases h2 : m < n + rfill
    · rw [if_pos (by omega), if_pos h2]
    · rw [if_neg (by omega), if_neg h2]

/-- The shifting loop of `steal_r`, on the right node. -/
theorem pair_stealR_right {right : Node} {rfill n : Nat} (h : rfill ≤ geo.noPairs)
    (hn : n ≤ rfill) (hm : m < geo.noPairs) :
    pair geo (forUp n (rfill - n) (fun i r => movepair geo r r (i - n) i) right) m =
      if m < rfill - n then pair geo right (m + n) else pair geo right m := by
  have key := forUp_inv (l := n) (n := rfill - n)
    (f := fun i r => movepair geo r r (i - n) i) (s := right)
    (P := fun i r => ∀ m, m < geo.noPairs →
      pair geo r m = if m < i then pair geo right (m + n) else pair geo right m)
    (by intro m _; rw [if_neg (Nat.not_lt_zero m)])
    (by
      intro i r hi ih m hm
      rw [Nat.add_sub_cancel_left, pair_movepair hm (by omega)]
      by_cases h : m = i
      · subst h
        rw [if_pos rfl, if_pos (by omega), ih _ (by omega), if_neg (by omega), Nat.add_comm]
      · rw [if_neg h, ih m hm]
        split_ifs <;> first | rfl | omega)
  exact key m hm

/-- The loop of `split` after `i` turns: the first `i` pairs are in the new
node, the pairs `h, ..., h + i - 1` have moved to the front of the old one. -/
theorem pair_splitLoop (new node : Node) {h : Nat} (hh : h + h ≤ geo.noPairs) :
    let p := forUp 0 h (fun i (p : Node × Node) =>
      let new := movepair geo p.1 p.2 i i
      let node := movepair geo p.2 p.2 i (i + h)
      (new, clearpair geo node (i + h))) (new, node)
    ∀ m, m < geo.noPairs →
      pair geo p.1 m = (if m < h then pair geo node m else pair geo new m) ∧
      pair geo p.2 m = if m < h then pair geo node (m + h)
        else if m < h + h then (zeroKey geo, 0) else pair geo node m := by
  have key := forUp_inv (l := 0) (n := h) (s := (new, node))
    (f := fun i (p : Node × Node) =>
      let new := movepair geo p.1 p.2 i i
      let node := movepair geo p.2 p.2 i (i + h)
      (new, clearpair geo node (i + h)))
    (P := fun i p => ∀ m, m < geo.noPairs →
      pair geo p.1 m = (if m < i then pair geo node m else pair geo new m) ∧
      pair geo p.2 m = if m < i then pair geo node (m + h)
        else if h ≤ m ∧ m < h + i then (zeroKey geo, 0) else pair geo node m)
    (by
      intro m _
      simp only [Nat.not_lt_zero, if_false]
      exact ⟨trivial, by rw [if_neg (by omega)]⟩)
    (by
      intro i p hi ih m hm
      simp only [Nat.zero_add]
      rw [pair_clearpair hm (by omega), pair_movepair hm (by omega), pair_movepair hm (by omega)]
      obtain ⟨ih1, ih2⟩ := ih m hm
      refine ⟨?_, ?_⟩
      · by_cases h1 : m = i
        · subst h1
          rw [if_pos rfl, if_pos (by omega), ih2, if_neg (by omega), if_neg (by omega)]
        · rw [if_neg h1, ih1]
          split_ifs <;> first | rfl | omega
      · by_cases h0 : m = i + h
        · rw [if_pos h0, if_neg (by omega), if_pos (by omega)]
        · rw [if_neg h0]
          by_cases h1 : m = i
          · subst h1
            rw [if_pos rfl, if_pos (by omega), (ih (m + h) (by omega)).2, if_neg (by omega),
              if_neg (by omega)]
          · rw [if_neg h1, ih2]
            split_ifs <;> first | rfl | omega)
  intro p m hm
  obtain ⟨k1, k2⟩ := key m hm
  refine ⟨k1, k2.trans ?_⟩
  by_cases h1 : m < h
  · rw [if_pos h1, if_pos h1]
  · rw [if_neg h1, if_neg h1]
    by_cases h2 : m < h + h
    · rw [if_pos (by omega), if_pos h2]
    · rw [if_neg (by omega), if_neg h2]

end Loops

end Logfs.Btree
