import Logfs.Btree.Visitor

/-!
# Termination

The source gives no measure for its recursion.  Here the functions that recurse
carry assertions instead: a call names the level it was made from and has to be
above it, a call of the insertion may be one level above the root, one of the
removal may not be above the root at all, and a node found by a second try may
not be full.  On every tree that the operations produce no assertion fails, and
from a bound of the recursion on, which the height gives, the functions do what
they do without assertions.
-/

namespace Logfs.Btree

open Levels

mutual

/-- `btree_insert_level`, called from the level `below`, with the assertion that the call goes up
and that no call goes above the level `top`. -/
def insertLevelBounded (geo : Geo) (top : Nat) : Nat → Nat → KeyPtr → Nat → Nat → TreeM Int
  | 0, _, _, _, _ => throw .fuel
  | fuel + 1, below, key, val, level =>
    if ¬ (below < level ∧ level ≤ top) then throw .bug
    else if val = 0 then throw .bug
    else do
      let t ← get
      let err ← if t.height < level then btreeGrow geo else pure 0
      if err ≠ 0 then pure err
      else insertRetryBounded geo top fuel false key val level
termination_by structural fuel => fuel

/-- `btree_insert_level` from the label `retry` on, with the assertion that the `goto` is taken
once. -/
def insertRetryBounded (geo : Geo) (top : Nat) : Nat → Bool → KeyPtr → Nat → Nat → TreeM Int
  | 0, _, _, _, _ => throw .fuel
  | fuel + 1, retried, key, val, level => do
    let node ← findLevel geo key level
    let k ← readKey geo key
    let w ← load node
    let pos := getpos geo w k
    let fill := getfill geo w pos
    if pos < fill ∧ keycmp geo w pos k = 0 then throw .bug
    else if fill = geo.noPairs then
      if retried then throw .bug
      else do
        let err ← rebalanceInsert geo (insertLevelBounded geo top fuel level) node level
        if err ≠ 0 then pure err
        else insertRetryBounded geo top fuel true key val level
    else if fill ≥ geo.noPairs then throw .bug
    else do
      store node (setval geo (setkey geo (shiftInsert geo w pos fill) k pos) val pos)
      pure 0
termination_by structural fuel => fuel

end

/-- `btree_remove_level`, called from the level `below`, with the assertion that the call goes up
and not above the root. -/
def removeLevelBounded (geo : Geo) : Nat → Nat → KeyPtr → Nat → TreeM Nat
  | 0, _, _, _ => throw .fuel
  | fuel + 1, below, key, level => do
    let t ← get
    if ¬ (below < level ∧ level ≤ t.height) then throw .bug
    else do
      let node ← findLevel geo key level
      let k ← readKey geo key
      let w ← load node
      let pos := getpos geo w k
      let fill := getfill geo w pos
      if level = 1 ∧ keycmp geo w pos k ≠ 0 then pure 0
      else if fill = 0 then throw .fault
      else do
        store node (clearpair geo (shiftRemove geo w pos fill) (fill - 1))
        if fill - 1 < geo.noPairs / 2 then
          if level < t.height then
            rebalance geo (removeLevelBounded geo fuel level) key level node (fill - 1)
          else btreeShrink geo (fill - 1)
        else pure ()
        pure (bval geo w pos)

/-! ## Insertion -/

section Insertion

variable {geo : Geo} {t : Tree} {m : OrdMap Key Nat} {key : KeyPtr} {k : Key}
  {val v level below top fuel : Nat}

theorem split_extends {ins ins' : KeyPtr → Nat → Nat → TreeM Int}
    (h : ∀ key val level t, Extends (ins key val level) (ins' key val level) t)
    (node level : Nat) (t : Tree) :
    Extends (split geo ins node level) (split geo ins' node level) t := by
  unfold split
  exact .bind (.refl _ _) fun _ _ => .ite (.refl _ _) (.bind (h _ _ _ _) fun _ _ => .refl _ _)

/-- What the insertion with assertions returns, the one without returns too, with any larger
bound on the recursion. -/
theorem insertBounded_extends (geo : Geo) (top : Nat) : ∀ fuel fuel', fuel ≤ fuel' →
    (∀ below key val level t, Extends (insertLevelBounded geo top fuel below key val level)
      (btreeInsertLevel geo fuel' key val level) t) ∧
    (∀ retried key val level t, Extends (insertRetryBounded geo top fuel retried key val level)
      (btreeInsertRetry geo fuel' key val level) t) := by
  intro fuel
  induction fuel with
  | zero =>
    intro fuel' _
    exact ⟨fun _ _ _ _ t => Extends.throw Stop.fuel _ t, fun _ _ _ _ t => .throw Stop.fuel _ t⟩
  | succ fuel ih =>
    intro fuel' hle
    obtain ⟨fuel', rfl⟩ : ∃ n, fuel' = n + 1 := ⟨fuel' - 1, by omega⟩
    obtain ⟨hlevel, hretry⟩ := ih fuel' (by omega)
    constructor
    · intro below key val level t
      rw [insertLevelBounded, btreeInsertLevel]
      by_cases hup : below < level ∧ level ≤ top
      · rw [if_neg (not_not.2 hup)]
        have htry := fun err t => Extends.ite (c := err ≠ 0) (.refl (pure err) t)
          (hretry false key val level t)
        exact .ite (.refl _ _) (.bind (.refl _ _) fun _ _ =>
          .ite (.bind (.refl _ _) htry) (.bind (.refl _ _) htry))
      · rw [if_pos hup]
        exact .throw _ _ _
    · intro retried key val level t
      rw [insertRetryBounded, btreeInsertRetry]
      refine .bind (.refl _ _) fun _ _ => .bind (.refl _ _) fun _ _ => .bind (.refl _ _) fun _ _ =>
        .ite (.refl _ _) (.ite ?_ (.refl _ _))
      cases retried with
      | true => exact .throw _ _ _
      | false =>
        exact .bind (split_extends (hlevel _) _ _ _) fun _ _ => .ite (.refl _ _) (hretry _ _ _ _ _)

theorem insertLevelBounded_enters (geo : Geo) (hup : below < level) (htop : level ≤ top) :
    Enters geo (insertLevelBounded geo top (fuel + 2) below)
      (insertRetryBounded geo top (fuel + 1) false) level where
  grow {key val t Q} hval hl h := by
    rwa [insertLevelBounded, if_neg (not_not.2 ⟨hup, htop⟩), if_neg hval, Runs, wp_bind, wp_get,
      if_pos hl]
  stay {key val t Q} hval hl h := by
    rw [insertLevelBounded, if_neg (not_not.2 ⟨hup, htop⟩), if_neg hval, Runs, wp_bind, wp_get,
      if_neg (by omega), wp_bind, wp_pure]
    simpa only [ne_eq, not_true_eq_false, if_false] using h
  room key val := ⟨_, rfl⟩

/-- The second try of the insertion with assertions stops at a full node. -/
theorem insertRetryBounded_eq :
    insertRetryBounded geo top (fuel + 3) false key val level =
      (findLevel geo key level >>= fun node =>
        insertAt geo (split geo (insertLevelBounded geo top (fuel + 2) level) node level >>=
          fun err => if err ≠ 0 then pure err
            else findLevel geo key level >>= fun node => insertAt geo (throw .bug) key val node)
          key val node) :=
  rfl

/-- One level of the insertion with assertions, given the level above. -/
theorem insertsBounded_step {rest : List Level} (hgeo : geo.Ok) (htop : level + rest.length < top)
    (ih : ∀ rest1 : List Level, rest1.length = rest.length → ∀ u tl, rest1 = u :: tl →
      InsertsBy geo (insertRetryBounded geo top (fuel + 1) false) (level + 1) tl) :
    InsertsBy geo (insertRetryBounded geo top (fuel + 3) false) level rest := by
  intro b t m key k val h hval
  have henters : Enters geo (insertLevelBounded geo top (fuel + 2) level)
      (insertRetryBounded geo top (fuel + 1) false) (level + 1) :=
    insertLevelBounded_enters geo (Nat.lt_succ_self level) (by omega)
  rw [insertRetryBounded_eq]
  refine attempt_spec _ h hval ?_
  intro t1 P r Q rest1 hr1 h1 hfull hr
  have hraise := raise_spec (m := m) (P := P) (r := r) (Q := Q) hgeo henters (ih rest1 hr1)
  exact splitRetry_spec (fun _ => throw Stop.bug) hgeo hraise h1 hfull hr hval

/-- The insertion at a level that leaves room for one more above the root fails no assertion. -/
theorem insertRetryBounded_spec (hgeo : geo.Ok) (top : Nat) :
    ∀ n fuel level (rest : List Level), rest.length = n → 2 * n + 3 ≤ fuel → level + n < top →
      InsertsBy geo (insertRetryBounded geo top fuel false) level rest :=
  insertsBy_levels (fun fuel => insertRetryBounded geo top fuel false) top
    fun _ _ _ htop ih => insertsBounded_step hgeo htop ih

/-- The insertion of an absent key fails no assertion. -/
theorem insertLevelBounded_runs (hgeo : geo.Ok) (h : Stores geo t m) (hk : k.length = geo.keylen)
    (habs : m.get k = none) (hv : v ≠ 0) (hfuel : 2 * t.height + 2 ≤ fuel) :
    Runs (insertLevelBounded geo (t.height + 1) fuel 0 (.ext k) v 1) (fun _ _ => True) t := by
  obtain ⟨fuel, rfl⟩ : ∃ n, fuel = n + 2 := ⟨fuel - 2, by omega⟩
  refine (insert_stores hgeo (insertLevelBounded_enters geo Nat.one_pos (Nat.le_add_left _ _))
    (fun rest hlen => ?_) h hk habs hv).imp fun _ _ _ => trivial
  exact insertRetryBounded_spec hgeo _ rest.length _ 1 rest rfl (by omega) (by omega)

end Insertion

/-! ## Removal -/

section Removal

variable {geo : Geo} {t : Tree} {m : OrdMap Key Nat} {k : Key} {v level below fuel : Nat}
  {rem rem' : KeyPtr → Nat → TreeM Nat}

theorem merge_extends (h : ∀ key t, Extends (rem key (level + 1)) (rem' key (level + 1)) t)
    (left lfill right rfill parent lpos : Nat) (t : Tree) :
    Extends (merge geo rem level left lfill right rfill parent lpos)
      (merge geo rem' level left lfill right rfill parent lpos) t := by
  unfold merge
  exact .bind (.refl _ _) fun _ _ => .bind (.refl _ _) fun _ _ => .bind (.refl _ _) fun _ _ =>
    .bind (.refl _ _) fun _ _ => .bind (.refl _ _) fun _ _ => .bind (h _ _) fun _ _ => .refl _ _

theorem rebalanceRight_extends
    (h : ∀ key t, Extends (rem key (level + 1)) (rem' key (level + 1)) t)
    (child fill parent : Nat) (wp : Node) (childNo left noLeft : Nat) (t : Tree) :
    Extends (rebalanceRight geo rem level child fill parent wp childNo left noLeft)
      (rebalanceRight geo rem' level child fill parent wp childNo left noLeft) t := by
  unfold rebalanceRight
  refine .ite (.bind (.refl _ _) fun _ t' => ?_) (.bind (.refl _ _) fun _ t' => ?_)
  · exact .ite (merge_extends h _ _ _ _ _ _ _) (.refl _ _)
  · exact .ite (merge_extends h _ _ _ _ _ _ _) (.refl _ _)

/-- `rebalance` calls the removal at the next level only. -/
theorem rebalance_extends (geo : Geo) (level : Nat)
    (h : ∀ key t, Extends (rem key (level + 1)) (rem' key (level + 1)) t)
    (key : KeyPtr) (child fill : Nat) (t : Tree) :
    Extends (rebalance geo rem key level child fill) (rebalance geo rem' key level child fill) t := by
  rw [rebalance_eq, rebalance_eq]
  refine .bind (.refl _ _) fun _ _ => .bind (.refl _ _) fun _ _ => .bind (.refl _ _) fun _ _ =>
    .ite (.refl _ _) ?_
  refine .ite (.bind (.refl _ _) fun _ t' => ?_) (.bind (.refl _ _) fun _ t' => ?_)
  · exact .ite (merge_extends h _ _ _ _ _ _ _) (rebalanceRight_extends h _ _ _ _ _ _ _ _)
  · exact .ite (merge_extends h _ _ _ _ _ _ _) (rebalanceRight_extends h _ _ _ _ _ _ _ _)

/-- What the removal with assertions returns, the one without returns too, with any larger bound
on the recursion. -/
theorem removeBounded_extends (geo : Geo) : ∀ fuel fuel', fuel ≤ fuel' → ∀ below key level t,
    Extends (removeLevelBounded geo fuel below key level) (btreeRemoveLevel geo fuel' key level)
      t := by
  intro fuel
  induction fuel with
  | zero =>
    intro fuel' _ below key level t
    exact .throw _ _ _
  | succ fuel ih =>
    intro fuel' hle below key level t
    obtain ⟨fuel', rfl⟩ : ∃ n, fuel' = n + 1 := ⟨fuel' - 1, by omega⟩
    unfold removeLevelBounded btreeRemoveLevel
    show Extends (if ¬ (below < level ∧ level ≤ t.height) then _ else _)
      (if level > t.height then _ else _) t
    by_cases hup : below < level ∧ level ≤ t.height
    · rw [if_neg (not_not.2 hup), if_neg (by omega)]
      have hreb := rebalance_extends geo level
        (fun key t => ih fuel' (by omega) level key (level + 1) t)
      exact .bind (.refl _ _) fun _ _ => .bind (.refl _ _) fun _ _ => .bind (.refl _ _) fun _ _ =>
        .ite (.refl _ _) (.ite (.refl _ _) (.bind (.refl _ _) fun _ _ =>
          .ite (.ite (.bind (hreb _ _ _ _) fun _ _ => .refl _ _) (.refl _ _)) (.refl _ _)))
    · rw [if_pos hup]
      exact .throw _ _ _

/-- Every call of the removal comes from the level below its own. -/
theorem removeChecked_extends (geo : Geo) : ∀ fuel below key level t, below < level →
    Extends (removeLevelChecked geo fuel key level) (removeLevelBounded geo fuel below key level)
      t := by
  intro fuel
  induction fuel with
  | zero =>
    intro below key level t _
    exact .throw _ _ _
  | succ fuel ih =>
    intro below key level t hup
    unfold removeLevelChecked removeLevelBounded
    show Extends (if level > t.height then _ else _)
      (if ¬ (below < level ∧ level ≤ t.height) then _ else _) t
    by_cases hl : level ≤ t.height
    · rw [if_neg (by omega), if_neg (not_not.2 ⟨hup, hl⟩)]
      have hreb := rebalance_extends geo level
        (fun key t => ih level key (level + 1) t (by omega))
      exact .bind (.refl _ _) fun _ _ => .bind (.refl _ _) fun _ _ => .bind (.refl _ _) fun _ _ =>
        .ite (.refl _ _) (.ite (.refl _ _) (.bind (.refl _ _) fun _ _ =>
          .ite (.ite (.bind (hreb _ _ _ _) fun _ _ => .refl _ _) (.refl _ _)) (.refl _ _)))
    · rw [if_pos (by omega)]
      exact .throw _ _ _

/-- The removal of a stored key fails no assertion. -/
theorem removeLevelBounded_ok (hgeo : geo.Ok) (h : Stores geo t m) (hk : m.get k = some v)
    (hfuel : t.height ≤ fuel) {r : Nat} {t' : Tree}
    (hrun : btreeRemoveLevel geo fuel (.ext k) 1 t = .ok r t') :
    removeLevelBounded geo fuel 0 (.ext k) 1 t = .ok r t' :=
  removeChecked_extends geo fuel 0 _ 1 t Nat.one_pos r t'
    ((removeLevelChecked_eq hgeo h hk hfuel).trans hrun)

end Removal

/-! ## Both operations -/

section Cost

variable {geo : Geo} {t : Tree} {m : OrdMap Key Nat} {k : Key} {v : Nat}

/-- An insertion ends the same way for every bound on the recursion that the height allows for. -/
theorem Stores.insert_ends (hgeo : geo.Ok) (h : Stores geo t m) (hk : k.length = geo.keylen)
    (habs : m.get k = none) (hv : v ≠ 0) :
    ∃ err t', btreeInsert geo (.ext k) v t = .ok err t' ∧ ∀ fuel, 2 * t.height + 2 ≤ fuel →
      btreeInsertLevel geo fuel (.ext k) v 1 t = .ok err t' ∧
      insertLevelBounded geo (t.height + 1) fuel 0 (.ext k) v 1 t = .ok err t' := by
  have hext := fun fuel fuel' hle => (insertBounded_extends geo (t.height + 1) fuel fuel' hle).1 0
    (.ext k) v 1 t
  obtain ⟨err, t', hrun, -⟩ := (insertLevelBounded_runs hgeo h hk habs hv (Nat.le_refl _)).ok
  refine ⟨err, t', hext _ _ (by unfold fuelFor; omega) _ _ hrun, fun fuel hfuel => ?_⟩
  have hplain := hext _ fuel hfuel _ _ hrun
  obtain ⟨err1, t1, hrun1, -⟩ := (insertLevelBounded_runs hgeo h hk habs hv hfuel).ok
  have hsame := hext _ fuel (Nat.le_refl _) _ _ hrun1
  rw [hplain] at hsame
  cases hsame
  exact ⟨hplain, hrun1⟩

theorem Stores.remove_ends (hgeo : geo.Ok) (h : Stores geo t m) (hk : m.get k = some v) :
    ∃ r t', btreeRemove geo (.ext k) t = .ok r t' ∧ ∀ fuel, t.height ≤ fuel →
      btreeRemoveLevel geo fuel (.ext k) 1 t = .ok r t' ∧
      removeLevelBounded geo fuel 0 (.ext k) 1 t = .ok r t' := by
  obtain ⟨r, t', hrun, -⟩ := (removeLevel_stores hgeo h hk (Nat.le_refl _)).ok
  have hfirst := removeLevelBounded_ok hgeo h hk (Nat.le_refl _) hrun
  have hsame := fun fuel hle => removeBounded_extends geo t.height fuel hle 0 (.ext k) 1 t r t' hfirst
  refine ⟨r, t', ?_, fun fuel hfuel => ?_⟩
  · show (if t.height = 0 then _ else _ : TreeM Nat) t = _
    rw [if_neg (h.height_ne_zero hk)]
    exact hsame _ (by unfold fuelFor; omega)
  · exact ⟨hsame fuel hfuel, removeLevelBounded_ok hgeo h hk hfuel (hsame fuel hfuel)⟩

/-- Insertions of absent keys and removals of stored keys terminate on every tree the operations
produce: no assertion on the recursion fails, and no bound on it that the height allows for
changes the outcome. -/
theorem recursion_bounded (geo : Geo) (hgeo : 4 ≤ geo.noPairs) (t : Tree) (h : Produced geo t)
    (k : Key) :
    (∀ v, k.length = geo.keylen → (∀ e ∈ t.pairs geo, e.1 ≠ k) → v ≠ 0 →
      ∃ err t', btreeInsert geo (.ext k) v t = .ok err t' ∧ ∀ fuel, 2 * t.height + 2 ≤ fuel →
        btreeInsertLevel geo fuel (.ext k) v 1 t = .ok err t' ∧
        insertLevelBounded geo (t.height + 1) fuel 0 (.ext k) v 1 t = .ok err t') ∧
    ((∃ e ∈ t.pairs geo, e.1 = k) →
      ∃ r t', btreeRemove geo (.ext k) t = .ok r t' ∧ ∀ fuel, t.height ≤ fuel →
        btreeRemoveLevel geo fuel (.ext k) 1 t = .ok r t' ∧
        removeLevelBounded geo fuel 0 (.ext k) 1 t = .ok r t') := by
  obtain ⟨m, hm⟩ := h.stores ⟨hgeo⟩
  constructor
  · intro v hk habs hv
    rw [hm.inv.2, ← OrdMap.get_eq_none] at habs
    exact hm.insert_ends ⟨hgeo⟩ hk habs hv
  · rintro ⟨e, he, rfl⟩
    rw [hm.inv.2] at he
    exact hm.remove_ends ⟨hgeo⟩ (OrdMap.mem_entries.1 he)

/-- An insertion that splits a leaf and the root, and a removal that merges two leaves and then
their parents, so that the height goes down on the way up. -/
theorem recursion_bounded_both : let t := treeAfter ⟨1, 4⟩ [] (insertions 2 10)
    let t1 := treeAfter ⟨1, 4⟩ [] (insertions 1 12)
    t.height = 2 ∧ (∃ t', insertLevelBounded ⟨1, 4⟩ 3 6 0 (.ext [1]) 1 1 t = .ok 0 t' ∧
      t'.height = 3) ∧
    t1.height = 3 ∧ ∃ t', removeLevelBounded ⟨1, 4⟩ 3 0 (.ext [11]) 1 t1 = .ok 11 t' ∧
      t'.height = 2 := by
  intro t t1
  have ht : Reachable ⟨1, 4⟩ t := reachable_treeAfter ⟨by decide⟩ (by decide +kernel)
  have ht1 : Reachable ⟨1, 4⟩ t1 := reachable_treeAfter ⟨by decide⟩ (by decide +kernel)
  have hheight : t.height = 2 := by decide +kernel
  have hheight1 : t1.height = 3 := by decide +kernel
  have habs : ∀ e ∈ t.pairs ⟨1, 4⟩, e.1 ≠ [1] := by decide +kernel
  have hmem : ∃ e ∈ t1.pairs ⟨1, 4⟩, e.1 = [11] := by decide +kernel
  have hins := run_eq (show valueOf (btreeInsert ⟨1, 4⟩ (.ext [1]) 1) t = some 0 by decide +kernel)
  have hrem := run_eq (show valueOf (btreeRemove ⟨1, 4⟩ (.ext [11])) t1 = some 11 by
    decide +kernel)
  have htall : (stateOf (btreeInsert ⟨1, 4⟩ (.ext [1]) 1) t).height = 3 := by decide +kernel
  have hlow : (stateOf (btreeRemove ⟨1, 4⟩ (.ext [11])) t1).height = 2 := by decide +kernel
  clear_value t t1
  obtain ⟨err, t', hrun, hb⟩ := (recursion_bounded ⟨1, 4⟩ (by decide) t ht.produced [1]).1 1 rfl
    habs one_ne_zero
  obtain ⟨r, t1', hrun1, hb1⟩ := (recursion_bounded ⟨1, 4⟩ (by decide) t1 ht1.produced [11]).2 hmem
  rw [hins] at hrun
  cases hrun
  rw [hrem] at hrun1
  cases hrun1
  have hbounded := (hb 6 (by omega)).2
  rw [hheight] at hbounded
  exact ⟨hheight, ⟨_, hbounded, htall⟩, hheight1, _, (hb1 3 (by omega)).2, hlow⟩

end Cost

end Logfs.Btree
