import Logfs.Btree.Find
import Logfs.Lib.OrdMap

/-!
# Lookups

`btree_lookup` and `btree_last` change nothing.  A lookup either reaches the
leaf that may hold the key or stops at a node all of whose separators are above
it; then no leaf holds the key.  The first value of every node on the left edge
leads to the leaf with the greatest key.
-/

namespace Logfs.Btree

open Levels

section Lookup

variable {geo : Geo} {t : Tree} {key : KeyPtr} {k : Key} {b P Q : Level} {r : Span Key}
  {rest : List Level}

/-- One turn of the outer loop of `btree_lookup`; `none` for the returns of `NULL`. -/
def lookupStep (geo : Geo) (key : KeyPtr) (node : Nat) : TreeM (Option Nat) := do
  let k ← readKey geo key
  let w ← load node
  let i := scan (fun i => decide (keycmp geo w i k ≤ 0)) 0 geo.noPairs
  if i = geo.noPairs then pure none
  else if bval geo w i = 0 then pure none
  else pure (some (bval geo w i))

/-- The outer loop of `btree_lookup`. -/
def lookupDescend (geo : Geo) (key : KeyPtr) : Nat → Nat → TreeM (Option Nat)
  | 0, node => pure (some node)
  | n + 1, node => do
    match ← lookupStep geo key node with
    | none => pure none
    | some child => lookupDescend geo key n child

theorem btreeLookupLoop_eq (n node : Nat) :
    btreeLookupLoop geo key n node = (do
      match ← lookupDescend geo key n node with
      | none => pure 0
      | some leaf => btreeLookupLoop geo key 0 leaf) := by
  induction n generalizing node with
  | zero => simp [lookupDescend]
  | succ n ih =>
    simp only [btreeLookupLoop, lookupDescend, lookupStep, ih, bind_assoc]
    congr 1; funext k
    congr 1; funext w
    split_ifs <;> simp

/-- The last turn of the loop comes after the descent to the level above. -/
theorem lookupDescend_succ (n node : Nat) :
    lookupDescend geo key (n + 1) node = (do
      match ← lookupDescend geo key n node with
      | none => pure none
      | some a => lookupStep geo key a) := by
  induction n generalizing node with
  | zero =>
    simp only [lookupDescend, pure_bind]
    conv_rhs => rw [← bind_pure (lookupStep geo key node)]
    congr 1; funext o
    cases o <;> rfl
  | succ n ih =>
    conv_lhs => rw [lookupDescend]
    conv_rhs => rw [lookupDescend, bind_assoc]
    congr 1; funext o
    cases o with
    | none => simp
    | some c => exact ih c

/-- A node whose separators are all above the key has nothing for it below. -/
theorem Stack.absent_below (h : Stack geo t (b :: (P ++ r :: Q) :: rest)) (hr : r.rng k)
    (hA : ∀ e ∈ r.es, k < e.1) : ∀ s ∈ b, ¬ s.rng k := by
  intro s hs hk
  obtain ⟨c, hc, hcs⟩ := forall₂_mem_right h.links hs
  have hck := hcs.rng k hk
  obtain ⟨q, hq, hcq⟩ := kids_mem hc
  obtain ⟨X, Y, hXY⟩ := List.append_of_mem hq
  obtain ⟨-, rfl, -⟩ := h.tail.apart.unique hXY rfl (kidsOf_rng hcq hck).1 hr
  exact absurd (hA _ (kidsOf_entry_mem hcq)) (not_lt.2 (kidsOf_rng hcq hck).2)

/-- A key outside the ranges of a level is outside the ranges below. -/
theorem Stack.outside_below {u : Level} (h : Stack geo t (b :: u :: rest))
    (hu : ∀ r ∈ u, ¬ r.rng k) : ∀ s ∈ b, ¬ s.rng k := by
  intro s hs hk
  obtain ⟨c, hc, hcs⟩ := forall₂_mem_right h.links hs
  obtain ⟨q, hq, hcq⟩ := kids_mem hc
  exact hu q hq (kidsOf_rng hcq (hcs.rng k hk)).1

/-- What the descent of a lookup ends with. -/
def Reaches (geo : Geo) (t : Tree) (k : Key) (b : Level) (rest : List Level) : Option Nat → Prop
  | none => ∀ r ∈ b, ¬ r.rng k
  | some a => ∃ b' rest', Found geo t k b rest a t b' rest'

theorem lookupStep_spec (h : Stack geo t (b :: (P ++ r :: Q) :: rest)) (hr : r.rng k)
    (hkey : KeyAt geo t key k) (hk : k.length = geo.keylen) :
    Runs (lookupStep geo key r.addr) (fun o t' => t' = t ∧ match o with
      | none => ∀ s ∈ b, ¬ s.rng k
      | some a => ∃ b', List.Forall₂ Span.Le b b' ∧ Stack geo t (b' :: (P ++ r :: Q) :: rest) ∧
          ∃ P r Q, b' = P ++ r :: Q ∧ r.addr = a ∧ r.rng k) t := by
  have hold := h.tail.bottom_holds r (by simp)
  obtain ⟨w, hw, hrep⟩ := hold.words
  obtain ⟨A, B, hes, hA, hB⟩ := exists_split hold.ok.sorted k
  rw [hes] at hrep
  have hpos := hrep.scan_pos hk hA fun e he => hB e (List.mem_of_mem_head? he)
  have hle := hrep.length_le
  unfold lookupStep
  simp only [Runs, wp_bind, wp_readKey hkey, wp_load hw, hpos]
  cases B with
  | cons e B =>
    have hval : bval geo w A.length = e.2 := hrep.bval_append
    have hnz : e.2 ≠ 0 := (hrep.entry e (by simp)).2
    simp only [List.length_append, List.length_cons] at hle
    rw [if_neg (by omega), hval, if_neg hnz, wp_pure]
    exact ⟨rfl, h.below_separator hr hes hA (hB e (by simp))⟩
  | nil =>
    simp only [List.append_nil] at hes hrep hle
    have habs := h.absent_below hr (hes ▸ hA)
    by_cases hend : A.length = geo.noPairs
    · rw [if_pos hend, wp_pure]
      exact ⟨rfl, habs⟩
    · rw [if_neg hend, if_pos (hrep.bval_unused (Nat.le_refl _) (by omega)), wp_pure]
      exact ⟨rfl, habs⟩

theorem lookupDescend_spec (hk : k.length = geo.keylen) (hkey : KeyAt geo t key k) :
    ∀ (rest : List Level) (b : Level), Stack geo t (b :: rest) →
      Runs (lookupDescend geo key rest.length t.node)
        (fun o t' => t' = t ∧ Reaches geo t k b rest o) t := by
  intro rest
  induction rest with
  | nil =>
    intro b h
    obtain ⟨b', hf⟩ := h.found_root (k := k)
    exact ⟨rfl, b', [], hf⟩
  | cons u rest ih =>
    intro b h
    rw [List.length_cons, lookupDescend_succ]
    refine (ih u h.tail).bind ?_
    rintro (_ | a) _ ⟨rfl, hu⟩
    · exact ⟨rfl, h.outside_below hu⟩
    · obtain ⟨u1, rest1, hf⟩ := hu
      obtain ⟨P, r, Q, rfl, rfl, hr⟩ := hf.here
      refine (lookupStep_spec (hf.under h) hr hkey hk).imp ?_
      rintro (_ | a) _ ⟨rfl, ho⟩
      · exact ⟨rfl, ho⟩
      · obtain ⟨b', hbot, hst, hhere⟩ := ho
        exact ⟨rfl, b', _, hf.step hst ⟨rfl, lowered_refl _⟩ hbot hhere (Ext.refl _ _)
          (SameHead.refl _)⟩

/-- `btree_lookup` finds the pair of the key in the bottom level. -/
theorem btreeLookupLoop_spec (hk : k.length = geo.keylen) (hkey : KeyAt geo t key k)
    (h : Stack geo t (b :: rest)) (m : OrdMap Key Nat) (hm : m.entries = b.flatMap Span.es) :
    Runs (btreeLookupLoop geo key rest.length t.node)
      (fun v t' => t' = t ∧ v = (m.get k).getD 0) t := by
  rw [btreeLookupLoop_eq]
  refine (lookupDescend_spec hk hkey rest b h).bind ?_
  rintro (_ | a) _ ⟨rfl, hr⟩
  · have : m.get k = none := by
      rw [OrdMap.get_eq_none, hm]
      rintro e he rfl
      obtain ⟨s, hs, hes⟩ := List.mem_flatMap.1 he
      exact hr s hs ((h.bottom_holds s hs).ok.inRng e hes)
    simp [this]
  · obtain ⟨b1, rest1, hf⟩ := hr
    obtain ⟨P, r, Q, rfl, rfl, hr⟩ := hf.here
    have hold := hf.stack.bottom_holds r (by simp)
    have hlive := hf.stack.bottom_live (r := r) (by simp)
    obtain ⟨w, hw, hrep⟩ := hold.words
    have hmem : ∀ v, m.get k = some v ↔ (k, v) ∈ r.es := by
      intro v
      rw [← OrdMap.mem_entries, hm, spans_le_entries hf.bottom, List.mem_flatMap]
      refine ⟨fun ⟨s, hs, hes⟩ => ?_, fun hv => ⟨r, by simp, hv⟩⟩
      have hsk := (hf.stack.bottom_holds s hs).ok.inRng (k, v) hes
      obtain ⟨X, Y, hXY⟩ := List.append_of_mem hs
      obtain ⟨-, rfl, -⟩ := hf.stack.apart.unique hXY rfl hsk hr
      exact hes
    have hcmp : ∀ i (hi : i < r.es.length), keycmp geo w i k = 0 ↔ (r.es[i]).1 = k := by
      intro i hi
      rw [keycmp, longcmp_eq_zero (by simp [hk]), hrep.bkey hi]
    show Wp (btreeLookupLoop geo key 0 r.addr) _ _ _
    rw [btreeLookupLoop, if_neg (show r.addr ≠ 0 by omega), wp_bind, wp_readKey hkey, wp_bind,
      wp_load hw]
    set n := scan (fun i => decide (keycmp geo w i k = 0)) 0 geo.noPairs with hn
    have hle := hrep.length_le
    by_cases hused : n < r.es.length
    · have hsat : keycmp geo w n k = 0 := by
        simpa [← hn] using scan_sat (p := fun i => decide (keycmp geo w i k = 0)) (l := 0)
          (n := geo.noPairs) (by omega)
      have hget : m.get k = some (r.es[n]).2 :=
        (hmem _).2 ((hcmp n hused).1 hsat ▸ List.getElem_mem hused)
      rw [if_pos (by omega), wp_pure, hget, hrep.bval hused]
      exact ⟨rfl, rfl⟩
    · -- no used slot holds the key
      have hget : m.get k = none := by
        rw [Option.eq_none_iff_forall_ne_some]
        intro v hv
        obtain ⟨i, hi, he⟩ := List.getElem_of_mem ((hmem v).1 hv)
        have hno := scan_not (p := fun i => decide (keycmp geo w i k = 0)) (l := 0)
          (n := geo.noPairs) (j := i) (Nat.zero_le _) (by omega)
        rw [decide_eq_false_iff_not, hcmp i hi, he] at hno
        exact hno rfl
      rw [hget, wp_ite]
      exact ⟨fun hlt => ⟨rfl, hrep.bval_unused (by omega) hlt⟩, fun _ => ⟨rfl, rfl⟩⟩

end Lookup

/-! ## The greatest key -/

section Last

variable {geo : Geo} {t : Tree} {b : Level} {rest : List Level}

/-- The node `btree_last` reaches from `node`. -/
def lastNode (geo : Geo) : Nat → Nat → TreeM Nat
  | 0, node => pure node
  | n + 1, node => do
    let w ← load node
    lastNode geo n (bval geo w 0)

theorem btreeLastLoop_eq (n node : Nat) :
    btreeLastLoop geo n node = (fun a => KeyPtr.slot a 0) <$> lastNode geo n node := by
  induction n generalizing node with
  | zero => simp [btreeLastLoop, lastNode]
  | succ n ih => simp [btreeLastLoop, lastNode, ih]

theorem lastNode_succ (n node : Nat) :
    lastNode geo (n + 1) node =
      lastNode geo n node >>= fun a => (fun w => bval geo w 0) <$> load a := by
  induction n generalizing node with
  | zero => simp [lastNode]
  | succ n ih =>
    conv_lhs => rw [lastNode]
    conv_rhs => rw [lastNode, bind_assoc]
    congr 1; funext w
    exact ih _

/-- The left edge of the tree leads to the first node of every level. -/
theorem lastNode_spec :
    ∀ (rest : List Level) (b : Level), Stack geo t (b :: rest) →
      (∀ l ∈ rest, ∀ r ∈ l, r.es ≠ []) →
      Runs (lastNode geo rest.length t.node)
        (fun a t' => t' = t ∧ ∃ r Q, b = r :: Q ∧ r.addr = a) t := by
  intro rest
  induction rest with
  | nil =>
    intro b h _
    obtain ⟨r, rfl, hr⟩ := h.linked
    exact ⟨rfl, r, [], rfl, hr⟩
  | cons u rest ih =>
    intro b h hne
    rw [List.length_cons, lastNode_succ]
    refine (ih u h.tail fun l hl => hne l (List.mem_cons_of_mem _ hl)).bind ?_
    rintro a _ ⟨rfl, r, Q, rfl, rfl⟩
    obtain ⟨w, hw, hrep⟩ := (h.tail.bottom_holds r (by simp)).words
    obtain ⟨e, E, hes⟩ := List.exists_cons_of_ne_nil (hne _ List.mem_cons_self r (by simp))
    have hl := h.links
    rw [kids_cons, hes, kidsOf_cons, List.cons_append] at hl
    rw [hes] at hrep
    cases hl with
    | @cons _ s _ b' hs _ =>
      rw [wp_map, wp_load hw]
      refine ⟨rfl, s, b', rfl, hs.addr.symm.trans ?_⟩
      exact (Rep.bval_append (A := []) hrep).symm

/-- `btree_last` points to the greatest key of the bottom level. -/
theorem btreeLastLoop_spec (h : Stack geo t (b :: rest)) (hne : ∀ l ∈ b :: rest, ∀ r ∈ l, r.es ≠ []) :
    Runs (btreeLastLoop geo rest.length t.node)
      (fun p t' => t' = t ∧ ∃ e, (b.flatMap Span.es).head? = some e ∧ KeyAt geo t p e.1) t := by
  rw [btreeLastLoop_eq, Runs, wp_map]
  refine (lastNode_spec rest b h fun l hl => hne l (List.mem_cons_of_mem _ hl)).imp ?_
  rintro a _ ⟨rfl, r, Q, rfl, rfl⟩
  obtain ⟨w, hw, hrep⟩ := (h.bottom_holds r (by simp)).words
  obtain ⟨e, E, hes⟩ := List.exists_cons_of_ne_nil (hne _ List.mem_cons_self r (by simp))
  rw [hes] at hrep
  refine ⟨rfl, e, by simp [hes], (h.bottom_live (by simp)).2, w, hw, ?_⟩
  exact Rep.bkey_append (A := []) hrep

end Last

end Logfs.Btree
