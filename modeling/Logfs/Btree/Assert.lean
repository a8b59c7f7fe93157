import Logfs.Btree.Invariant

/-!
# No assertion fires

A failed `BUG_ON`, a step to slot -1 and an access through `NULL` all stop a run
of the model.  The branch of `btree_remove_level` that discards the tree does
not; `btreeRemoveChecked` stops there as well.  Sequences of insertions of
absent keys, with any failing allocations, and removals of stored keys never
stop, and the two removals do the same in them.
-/

namespace Logfs.Btree

open Levels

/-- `btree_remove_level`, with an assertion that it has not recursed all the way up. -/
def removeLevelChecked (geo : Geo) : Nat → KeyPtr → Nat → TreeM Nat
  | 0, _, _ => throw .fuel
  | fuel + 1, key, level => do
    let t ← get
    if level > t.height then throw .bug
    else do
      let node ← findLevel geo key level
      let k ← readKey geo key
      let w ← load node
      let pos := getpos geo w k
      let fill := getfill geo w pos
      if level = 1 ∧ keycmp geo w pos k ≠ 0 then pure 0
      else if fill = 0 then throw .fault
      else do
        store node (clearpair geo (shiftRemove geo w pos fill) (fill - 1))
        if fill - 1 < geo.noPairs / 2 then
          if level < t.height then
            rebalance geo (removeLevelChecked geo fuel) key level node (fill - 1)
          else btreeShrink geo (fill - 1)
        else pure ()
        pure (bval geo w pos)

/-- `btree_remove` with that assertion. -/
def btreeRemoveChecked (geo : Geo) (key : KeyPtr) : TreeM Nat := do
  let t ← get
  if t.height = 0 then pure 0
  else removeLevelChecked geo (fuelFor t.height) key 1

/-! ## The branch that discards the tree -/

section Guarded

variable {α β : Type} {m m' : TreeM α} {f g : α → TreeM β} {t : Tree}

/-- A run that ends with an empty tree. -/
def Ends (m : TreeM α) (t : Tree) : Prop :=
  Wp m (fun _ t' => t'.height = 0) (fun _ t' => t'.height = 0) t

/-- The runs are the same, unless the second one has discarded the tree. -/
def Guarded (m m' : TreeM α) (t : Tree) : Prop := m t = m' t ∨ Ends m' t

theorem Guarded.refl (m : TreeM α) (t : Tree) : Guarded m m t := Or.inl rfl

theorem Guarded.bind (h : ∀ a t', Guarded (f a) (g a) t') : Guarded (m >>= f) (m >>= g) t := by
  unfold Guarded Ends
  rw [wp_bind]
  show EStateM.bind m f t = EStateM.bind m g t ∨ _
  unfold EStateM.bind Wp
  cases m t with
  | ok a t' => exact h a t'
  | error e t' => exact Or.inl rfl

/-- What follows does not bring the tree back. -/
theorem Guarded.seq (h : Guarded m m' t) (hf : ∀ a t', t'.height = 0 → Ends (f a) t') :
    Guarded (m >>= f) (m' >>= f) t := by
  rcases h with h | h
  · refine Or.inl ?_
    show EStateM.bind m f t = EStateM.bind m' f t
    unfold EStateM.bind
    rw [h]
  · exact Or.inr (Wp.bind h hf)

theorem Guarded.ite {c : Prop} [Decidable c] {n n' : TreeM α} (h : Guarded m m' t)
    (hn : Guarded n n' t) : Guarded (if c then m else n) (if c then m' else n') t := by
  split_ifs
  · exact h
  · exact hn

theorem free_ends {a : Nat} (h : t.height = 0) : Ends (free a) t := by
  unfold Ends Wp free
  cases t.mem a <;> exact h

end Guarded

section Checked

variable {geo : Geo} {t : Tree} {m : OrdMap Key Nat} {k : Key} {v : Nat}
  {rem rem' : KeyPtr → Nat → TreeM Nat}

theorem merge_guarded (h : ∀ key level t, Guarded (rem key level) (rem' key level) t)
    (level left lfill right rfill parent lpos : Nat) (t : Tree) :
    Guarded (merge geo rem level left lfill right rfill parent lpos)
      (merge geo rem' level left lfill right rfill parent lpos) t := by
  unfold merge
  refine .bind fun _ _ => .bind fun _ _ => .bind fun _ _ => .bind fun _ _ => .bind fun _ t' => ?_
  exact (h _ _ t').seq fun _ _ h0 => free_ends h0

theorem rebalanceRight_guarded (h : ∀ key level t, Guarded (rem key level) (rem' key level) t)
    (level child fill parent : Nat) (wp : Node) (childNo left noLeft : Nat) (t : Tree) :
    Guarded (rebalanceRight geo rem level child fill parent wp childNo left noLeft)
      (rebalanceRight geo rem' level child fill parent wp childNo left noLeft) t := by
  unfold rebalanceRight
  refine .ite (.bind fun _ t' => ?_) (.bind fun _ t' => ?_)
  · exact .ite (merge_guarded h _ _ _ _ _ _ _ _) (.refl _ _)
  · exact .ite (merge_guarded h _ _ _ _ _ _ _ _) (.refl _ _)

theorem rebalance_guarded (h : ∀ key level t, Guarded (rem key level) (rem' key level) t)
    (key : KeyPtr) (level child fill : Nat) (t : Tree) :
    Guarded (rebalance geo rem key level child fill) (rebalance geo rem' key level child fill) t := by
  rw [rebalance_eq, rebalance_eq]
  refine .bind fun _ _ => .bind fun _ _ => .bind fun _ _ => .ite (.refl _ _) ?_
  refine .ite (.bind fun _ t' => ?_) (.bind fun _ t' => ?_)
  · exact .ite (merge_guarded h _ _ _ _ _ _ _ _) (rebalanceRight_guarded h _ _ _ _ _ _ _ _ _)
  · exact .ite (merge_guarded h _ _ _ _ _ _ _ _) (rebalanceRight_guarded h _ _ _ _ _ _ _ _ _)

/-- Without the branch the two removals are the same. -/
theorem removeLevelChecked_guarded (geo : Geo) : ∀ (fuel : Nat) (key : KeyPtr) (level : Nat)
    (t : Tree), Guarded (removeLevelChecked geo fuel key level)
      (btreeRemoveLevel geo fuel key level) t := by
  intro fuel
  induction fuel with
  | zero => exact fun key level t => .refl _ t
  | succ fuel ih =>
    intro key level t
    by_cases hup : level > t.height
    · refine Or.inr ?_
      unfold btreeRemoveLevel Ends
      rw [wp_bind, wp_get, if_pos hup]
      rfl
    · unfold removeLevelChecked btreeRemoveLevel
      show Guarded (if level > t.height then _ else _) (if level > t.height then _ else _) t
      rw [if_neg hup, if_neg hup]
      refine .bind fun _ _ => .bind fun _ _ => .bind fun _ _ => .ite (.refl _ _)
        (.ite (.refl _ _) (.bind fun _ t' => .ite (.ite ?_ (.refl _ _)) (.refl _ _)))
      exact (rebalance_guarded ih _ _ _ _ t').seq fun _ _ h0 => h0

/-- At the root there is no recursion. -/
theorem removeLevelChecked_root (geo : Geo) (fuel : Nat) (key : KeyPtr) :
    removeLevelChecked geo fuel key t.height t = btreeRemoveLevel geo fuel key t.height t := by
  cases fuel with
  | zero => rfl
  | succ fuel =>
    unfold removeLevelChecked btreeRemoveLevel
    show (if t.height > t.height then _ else _ : TreeM Nat) t =
      (if t.height > t.height then _ else _ : TreeM Nat) t
    simp only [gt_iff_lt, lt_self_iff_false, if_false]

/-- A tree of one level has lost its height only with its last pair. -/
theorem Stores.height_le_one (h : Stores geo t m) {t' : Tree} (h' : Stores geo t' (m.erase k))
    (h0 : t'.height = 0) : t.height ≤ 1 := by
  by_contra hc
  have hinv := h.inv.1.root (by omega)
  rw [if_neg (by omega)] at hinv
  have htwo := hinv.two_pow_le
  rw [← Tree.pairs, h.inv.2] at htwo
  have hfour : 2 ^ 2 ≤ 2 ^ t.height := Nat.pow_le_pow_right (by decide) (by omega)
  -- all the keys are `k`, and there is one pair of each key
  have hnone : (m.erase k).entries = [] := by
    rw [← h'.inv.2, Tree.pairs, h0]
    rfl
  have hall : ∀ e ∈ m.entries, e.1 = k := by
    intro e he
    by_contra hne
    have : e ∈ (m.erase k).entries := by simp [OrdMap.erase, he, hne]
    rw [hnone] at this
    cases this
  have hs := m.sorted
  obtain ⟨a, b, l, hl⟩ : ∃ a b l, m.entries = a :: b :: l := by
    cases hm : m.entries with
    | nil => simp [hm] at htwo
    | cons a l =>
      cases l with
      | nil =>
        rw [hm, List.length_singleton] at htwo
        omega
      | cons b l => exact ⟨a, b, l, rfl⟩
  rw [hl] at hall hs
  have hab := (List.pairwise_cons.1 hs).1 b (by simp)
  rw [hall a (by simp), hall b (by simp)] at hab
  exact lt_irrefl _ hab

/-- The removal of a stored key does not reach the branch. -/
theorem removeLevelChecked_eq (hgeo : geo.Ok) (h : Stores geo t m) (hk : m.get k = some v)
    {fuel : Nat} (hfuel : t.height ≤ fuel) :
    removeLevelChecked geo fuel (.ext k) 1 t = btreeRemoveLevel geo fuel (.ext k) 1 t := by
  rcases removeLevelChecked_guarded geo fuel (.ext k) 1 t with hg | hg
  · exact hg
  · obtain ⟨r, t', hrun, -, hst, -⟩ := (removeLevel_stores hgeo h hk hfuel).ok
    have h0 := h.height_ne_zero hk
    have h1 : t.height = 1 := by
      have := h.height_le_one hst (hg.of_ok hrun)
      omega
    have := removeLevelChecked_root (t := t) geo fuel (.ext k)
    rwa [h1] at this

theorem btreeRemoveChecked_eq (hgeo : geo.Ok) (h : Stores geo t m) (hk : m.get k = some v) :
    btreeRemoveChecked geo (.ext k) t = btreeRemove geo (.ext k) t := by
  have h0 := h.height_ne_zero hk
  show (if t.height = 0 then _ else _ : TreeM Nat) t = (if t.height = 0 then _ else _ : TreeM Nat) t
  rw [if_neg h0, if_neg h0]
  exact removeLevelChecked_eq hgeo h hk (by unfold fuelFor; omega)

end Checked

/-! ## Sequences of calls -/

section Calls

variable {geo : Geo} {t : Tree} {m : OrdMap Key Nat}

/-- The results of a sequence of calls on a map, some of which may run out of memory. -/
def Follows : FinMap → List Op → List Result → Prop
  | _, [], rs => rs = []
  | m, op :: ops, rs => ∃ r rs' m', rs = r :: rs' ∧ op.Outcome m r m' ∧ Follows m' ops rs'

def Op.runChecked (geo : Geo) : Op → TreeM Result
  | .remove k => .val <$> btreeRemoveChecked geo (.ext k)
  | op => op.run geo

def runChecked (geo : Geo) : List Op → TreeM (List Result)
  | [] => pure []
  | op :: ops => do
    let r ← op.runChecked geo
    let rs ← runChecked geo ops
    pure (r :: rs)

/-- A call that is allowed does the same with the assertion. -/
theorem Op.runChecked_eq (hgeo : geo.Ok) (h : Stores geo t m) (op : Op)
    (hop : op.Allowed geo m.get) : op.runChecked geo t = op.run geo t := by
  cases op with
  | remove k =>
    obtain ⟨v, hv⟩ := Option.ne_none_iff_exists'.1 hop
    show EStateM.map _ _ t = EStateM.map _ _ t
    unfold EStateM.map
    rw [btreeRemoveChecked_eq hgeo h hv]
  | insert k v => rfl
  | lookup k => rfl
  | last => rfl

/-- A permitted sequence of calls returns, with and without the assertion, what it returns on
the map. -/
theorem runChecked_returns (hgeo : geo.Ok) (ops : List Op) : ∀ {t : Tree} {m : OrdMap Key Nat},
    Stores geo t m → PermittedRun geo ops t →
      ∃ rs t', runChecked geo ops t = .ok rs t' ∧ runOps geo ops t = .ok rs t' ∧
        Follows m.get ops rs := by
  induction ops with
  | nil => exact fun _ _ => ⟨[], _, rfl, rfl, rfl⟩
  | cons op ops ih =>
    intro t m h hops
    have hop := h.permitted hops.1
    obtain ⟨r, t1, hr, -, m1, h1, hout, -⟩ := (op.run_outcome hgeo h hop).ok
    obtain ⟨rs, t2, hcs, hrs, hf⟩ := ih h1 (hops.2 r t1 hr)
    refine ⟨r :: rs, t2, ?_, ?_, r, rs, m1.get, rfl, hout, hf⟩
    · rw [runChecked, bind_ok ((op.runChecked_eq hgeo h hop).trans hr), bind_ok hcs]
      rfl
    · rw [runOps, bind_ok hr, bind_ok hrs]
      rfl

/-- Insertions of absent keys, with any failing allocations, and removals of stored keys reach
no assertion, and no removal discards the tree. -/
theorem no_assertion_fires (geo : Geo) (hgeo : 4 ≤ geo.noPairs) (fails : List Bool)
    (ops : List Op) (hops : PermittedRun geo ops (btreeInit fails)) :
    ∃ rs t, runChecked geo ops (btreeInit fails) = .ok rs t ∧
      runOps geo ops (btreeInit fails) = .ok rs t := by
  obtain ⟨rs, t, hc, hr, -⟩ := runChecked_returns ⟨hgeo⟩ ops (stores_init geo fails) hops
  exact ⟨rs, t, hc, hr⟩

/-- Two insertions without memory, for the new leaf and for the new root; later a leaf takes a
pair from its neighbour, and is then merged with it, so that the root goes. -/
def retried : List Op :=
  [10, 9, 6, 5, 4, 4, 4, 8].map (fun k => .insert [k] k) ++ [.remove [10], .remove [9]]

theorem no_assertion_fires_retried :
    let rs := [0, 0, 0, 0, -ENOMEM, -ENOMEM, 0, 0].map .err ++ [.val 10, .val 9]
    ∃ t, runChecked ⟨1, 4⟩ retried (btreeInit [false, true, false, true]) = .ok rs t ∧
      runOps ⟨1, 4⟩ retried (btreeInit [false, true, false, true]) = .ok rs t := by
  intro rs
  obtain ⟨rs', t, hc, hr⟩ := no_assertion_fires ⟨1, 4⟩ (by decide) [false, true, false, true]
    retried (by decide +kernel)
  have hrun := run_eq (show valueOf (runOps ⟨1, 4⟩ retried) (btreeInit [false, true, false, true]) =
    some rs by decide +kernel)
  rw [hrun] at hr
  cases hr
  exact ⟨_, hc, hrun⟩

end Calls

end Logfs.Btree
