import Logfs.Btree.Map

/-!
# The representation invariant

What the memory of a tree looks like, said of the memory alone: the depth of the
leaves, the order and the fill of every node, and the range of keys below every
separator.  It holds of every tree that insertions of absent keys, failed ones
included, and removals of stored keys can reach.
-/

namespace Logfs.Btree

open Levels

/-- The pairs in the used slots of a node. -/
def usedPairs (geo : Geo) (w : Node) : Entries :=
  (List.range (getfill geo w 0)).map fun i => (bkey geo w i, bval geo w i)

/-- The keys in the subtree of height `h` at `a`, separators included. -/
def keysUnder (geo : Geo) (mem : Nat → Option Node) : Nat → Nat → List Key
  | 0, _ => []
  | h + 1, a =>
    match mem a with
    | none => []
    | some w => (usedPairs geo w).flatMap fun e => e.1 :: keysUnder geo mem h e.2

/-- The pairs in the leaves of the subtree of height `h` at `a`. -/
def leafPairs (geo : Geo) (mem : Nat → Option Node) : Nat → Nat → Entries
  | 0, _ => []
  | h + 1, a =>
    match mem a with
    | none => []
    | some w => if h = 0 then usedPairs geo w
      else (usedPairs geo w).flatMap fun e => leafPairs geo mem h e.2

/-- The pairs stored in a tree. -/
def Tree.pairs (geo : Geo) (t : Tree) : Entries := leafPairs geo t.mem t.height t.node

/-- The used slots are a prefix in descending order, the others are all zero. -/
structure NodeInv (geo : Geo) (w : Node) : Prop where
  used : ∀ i, i < getfill geo w 0 → bval geo w i ≠ 0
  descending : ∀ i j, i < j → j < getfill geo w 0 → longcmp (bkey geo w j) (bkey geo w i) < 0
  unused : ∀ i, getfill geo w 0 ≤ i → i < geo.noPairs →
    bkey geo w i = zeroKey geo ∧ bval geo w i = 0

/-- The subtree of height `h` at `a`, whose top node has at least `n` used slots. -/
def SubtreeInv (geo : Geo) (mem : Nat → Option Node) : Nat → Nat → Nat → Prop
  | 0, _, _ => False
  | h + 1, n, a => ∃ w, mem a = some w ∧ NodeInv geo w ∧ n ≤ getfill geo w 0 ∧
      (h ≠ 0 → ∀ i, i < getfill geo w 0 → SubtreeInv geo mem h 2 (bval geo w i) ∧
        ∀ k ∈ keysUnder geo mem h (bval geo w i),
          longcmp (bkey geo w i) k ≤ 0 ∧ (0 < i → longcmp k (bkey geo w (i - 1)) < 0))

/-- The representation invariant of a tree. -/
structure TreeInv (geo : Geo) (t : Tree) : Prop where
  empty_iff : t.height = 0 ↔ t.node = 0
  root : t.height ≠ 0 → SubtreeInv geo t.mem t.height (if t.height = 1 then 1 else 2) t.node

/-! ## Nodes -/

section Nodes

variable {geo : Geo} {w : Node} {es : Entries} {mem : Nat → Option Node} {a h : Nat}

theorem longcmp_lt_zero {a b : Key} (h : a.length = b.length) : longcmp a b < 0 ↔ a < b := by
  rw [lt_iff_le_and_ne, lt_iff_le_and_ne, longcmp_le_zero h, ne_eq, longcmp_eq_zero h]

theorem Rep.usedPairs (hrep : Rep geo w es) : usedPairs geo w = es := by
  unfold Btree.usedPairs
  rw [hrep.getfill (Nat.zero_le _)]
  refine List.ext_getElem (by simp) fun i hi hi' => ?_
  simp [hrep.bkey hi', hrep.bval hi']

theorem Rep.nodeInv (hrep : Rep geo w es) (hs : es.Pairwise fun a b => b.1 < a.1) :
    NodeInv geo w := by
  have hfill := hrep.getfill (Nat.zero_le _)
  refine ⟨fun i hi => ?_, fun i j hij hj => ?_, fun i hi hn => ?_⟩
  · exact hrep.bval_ne_zero (by omega)
  · rw [hfill] at hj
    rw [longcmp_lt_zero (by simp), hrep.bkey hj, hrep.bkey (by omega)]
    exact List.pairwise_iff_getElem.1 hs i j _ hj hij
  · exact ⟨hrep.bkey_unused (by omega) hn, hrep.bval_unused (by omega) hn⟩

theorem keysUnder_of_rep (hw : mem a = some w) (hrep : Rep geo w es) :
    keysUnder geo mem (h + 1) a = es.flatMap fun e => e.1 :: keysUnder geo mem h e.2 := by
  simp only [keysUnder, hw, hrep.usedPairs]

theorem leafPairs_of_rep (hw : mem a = some w) (hrep : Rep geo w es) :
    leafPairs geo mem (h + 1) a =
      if h = 0 then es else es.flatMap fun e => leafPairs geo mem h e.2 := by
  simp only [leafPairs, hw, hrep.usedPairs]

theorem usedPairs_length : (usedPairs geo w).length = getfill geo w 0 := by
  simp [usedPairs]

theorem keysUnder_length : ∀ {h a : Nat} {k : Key}, k ∈ keysUnder geo mem h a →
    k.length = geo.keylen := by
  intro h
  induction h with
  | zero => exact fun hk => by simp [keysUnder] at hk
  | succ h ih =>
    intro a k hk
    unfold keysUnder at hk
    split at hk
    · cases hk
    · obtain ⟨e, he, hk⟩ := List.mem_flatMap.1 hk
      rcases List.mem_cons.1 hk with rfl | hk
      · obtain ⟨i, -, rfl⟩ := List.mem_map.1 he
        exact bkey_length geo _ i
      · exact ih hk

/-- A subtree of height `h` holds at least `2 ^ h` pairs, its top node having two. -/
theorem SubtreeInv.two_pow_le : ∀ {h a : Nat}, SubtreeInv geo mem h 2 a →
    2 ^ h ≤ (leafPairs geo mem h a).length := by
  intro h
  induction h with
  | zero => exact fun h => h.elim
  | succ h ih =>
    rintro a ⟨w, hw, -, hn, hkids⟩
    simp only [leafPairs, hw]
    split_ifs with h0
    · subst h0
      rw [usedPairs_length]
      simpa using hn
    · rw [List.length_flatMap]
      have hge : ∀ x ∈ (usedPairs geo w).map fun e => (leafPairs geo mem h e.2).length,
          2 ^ h ≤ x := by
        intro x hx
        obtain ⟨e, he, rfl⟩ := List.mem_map.1 hx
        obtain ⟨i, hi, rfl⟩ := List.mem_map.1 he
        exact ih (hkids h0 i (List.mem_range.1 hi)).1
      have := List.card_nsmul_le_sum _ _ hge
      rw [List.length_map, usedPairs_length, smul_eq_mul] at this
      calc 2 ^ (h + 1) = 2 * 2 ^ h := by ring
        _ ≤ getfill geo w 0 * 2 ^ h := Nat.mul_le_mul_right _ hn
        _ ≤ _ := this

end Nodes

/-! ## Levels -/

section Levels

variable {geo : Geo} {t : Tree} {b u P Q : Level} {rest : List Level} {r : Span Key} {h n m : Nat}

/-- The subtrees of height `h` whose top nodes are the level `b`. -/
structure LevelInv (geo : Geo) (t : Tree) (h n : Nat) (b : Level) : Prop where
  subtree : ∀ r ∈ b, SubtreeInv geo t.mem h n r.addr
  keys : ∀ r ∈ b, ∀ k ∈ keysUnder geo t.mem h r.addr, r.rng k

/-- The node below a pair of a level. -/
theorem Stack.kid_span {A B : Entries} {e : Key × Nat} (hst : Stack geo t (b :: u :: rest))
    (hr : r ∈ u) (hes : r.es = A ++ e :: B) :
    ∃ s ∈ b, s.addr = e.2 ∧ ∀ x, s.rng x → below r.rng A x ∧ e.1 ≤ x := by
  obtain ⟨P, Q, rfl⟩ := List.append_of_mem hr
  have hl := hst.links
  have hkids : kids (P ++ r :: Q) = (kids P ++ kidsOf r.rng A) ++
      (⟨e.1, e.2, fun x => below r.rng A x ∧ e.1 ≤ x⟩ : Kid Key) ::
        (kidsOf (fun x => below r.rng A x ∧ x < e.1) B ++ kids Q) := by
    simp [kids_append, kids_cons, hes, kidsOf_append]
  rw [hkids] at hl
  obtain ⟨X, s, Y, rfl, -, hs, -⟩ := forall₂_split_cons hl
  exact ⟨s, by simp, hs.addr.symm, hs.rng⟩

theorem LevelInv.leaf (hst : Stack geo t (b :: rest)) (hn : ∀ r ∈ b, n ≤ r.es.length) :
    LevelInv geo t 1 n b := by
  refine ⟨fun r hr => ?_, fun r hr k hk => ?_⟩
  · obtain ⟨⟨w, hw, hrep⟩, hok⟩ := hst.bottom_holds r hr
    refine ⟨w, hw, hrep.nodeInv hok.sorted, ?_, fun hc => absurd rfl hc⟩
    rw [hrep.getfill (Nat.zero_le _)]
    exact hn r hr
  · obtain ⟨⟨w, hw, hrep⟩, hok⟩ := hst.bottom_holds r hr
    rw [keysUnder_of_rep hw hrep] at hk
    obtain ⟨e, he, hk⟩ := List.mem_flatMap.1 hk
    simp only [keysUnder, List.mem_singleton] at hk
    exact hk ▸ hok.inRng e he

/-- The invariant climbs one level. -/
theorem LevelInv.up (hb : LevelInv geo t (h + 1) 2 b) (hst : Stack geo t (b :: u :: rest))
    (hn : ∀ r ∈ u, n ≤ r.es.length) : LevelInv geo t (h + 2) n u := by
  refine ⟨fun r hr => ?_, fun r hr k hk => ?_⟩
  · obtain ⟨⟨w, hw, hrep⟩, hok⟩ := hst.tail.bottom_holds r hr
    have hfill := hrep.getfill (Nat.zero_le _)
    refine ⟨w, hw, hrep.nodeInv hok.sorted, hfill ▸ hn r hr, fun _ i hi => ?_⟩
    rw [hfill] at hi
    have hes : r.es = r.es.take i ++ r.es[i] :: r.es.drop (i + 1) := by simp
    obtain ⟨s, hs, ha, hrng⟩ := hst.kid_span hr hes
    rw [hrep.bval hi, ← ha]
    refine ⟨hb.subtree s hs, fun k hk => ?_⟩
    obtain ⟨hbelow, hle⟩ := hrng k (hb.keys s hs k hk)
    have hklen := keysUnder_length hk
    rw [longcmp_le_zero (by simp [hklen]), hrep.bkey hi]
    refine ⟨hle, fun h0 => ?_⟩
    rw [longcmp_lt_zero (by simp [hklen]), hrep.bkey (by omega)]
    refine hbelow.2 _ (List.mem_take_iff_getElem.2 ⟨i - 1, by omega, rfl⟩)
  · obtain ⟨⟨w, hw, hrep⟩, hok⟩ := hst.tail.bottom_holds r hr
    rw [keysUnder_of_rep hw hrep] at hk
    obtain ⟨e, he, hk⟩ := List.mem_flatMap.1 hk
    rcases List.mem_cons.1 hk with rfl | hk
    · exact hok.inRng e he
    · obtain ⟨A, B, hes⟩ := List.append_of_mem he
      obtain ⟨s, hs, ha, hrng⟩ := hst.kid_span hr hes
      rw [← ha] at hk
      exact (hrng k (hb.keys s hs k hk)).1.1

/-- The pairs in the leaves, from one level to the next. -/
theorem leafPairs_up (hst : Stack geo t (b :: u :: rest)) (hh : h ≠ 0) :
    (u.flatMap fun r => leafPairs geo t.mem (h + 1) r.addr) =
      b.flatMap fun s => leafPairs geo t.mem h s.addr := by
  have hu : (u.flatMap fun r => leafPairs geo t.mem (h + 1) r.addr) =
      (kids u).flatMap fun c => leafPairs geo t.mem h c.val := by
    have hr : ∀ r ∈ u, leafPairs geo t.mem (h + 1) r.addr =
        (kidsOf r.rng r.es).flatMap fun c => leafPairs geo t.mem h c.val := by
      intro r hr
      obtain ⟨⟨w, hw, hrep⟩, -⟩ := hst.tail.bottom_holds r hr
      rw [leafPairs_of_rep hw hrep, if_neg hh]
      conv_lhs => rw [← kidsOf_entries r.rng r.es]
      rw [List.flatMap_map]
      rfl
    rw [kids, List.flatMap_assoc]
    exact List.flatMap_congr hr
  rw [hu]
  exact links_flatMap hst.links

/-- From the invariant of a level to that of the root. -/
theorem LevelInv.root : ∀ (rest : List Level) {h : Nat} {b : Level}, Stack geo t (b :: rest) →
    LevelInv geo t (h + 1) 2 b → (∀ l ∈ rest, ∀ r ∈ l, 2 ≤ r.es.length) →
      SubtreeInv geo t.mem (h + 1 + rest.length) 2 t.node ∧
        leafPairs geo t.mem (h + 1 + rest.length) t.node =
          b.flatMap fun s => leafPairs geo t.mem (h + 1) s.addr := by
  intro rest
  induction rest with
  | nil =>
    intro h b hst hb _
    obtain ⟨r, rfl, hr⟩ := hst.linked
    rw [← hr]
    exact ⟨hb.subtree r (by simp), by simp⟩
  | cons u rest ih =>
    intro h b hst hb hn
    obtain ⟨h1, h2⟩ := ih hst.tail (hb.up hst (hn u List.mem_cons_self))
      fun l hl => hn l (List.mem_cons_of_mem _ hl)
    rw [show h + 1 + (u :: rest).length = h + 1 + 1 + rest.length by rw [List.length_cons]; omega]
    exact ⟨h1, h2.trans (leafPairs_up hst (by omega))⟩

end Levels

/-! ## Reachable trees -/

section Reach

variable {geo : Geo} {t : Tree} {m : OrdMap Key Nat}

theorem leafPairs_bottom {b : Level} {rest : List Level} (hst : Stack geo t (b :: rest)) :
    (b.flatMap fun s => leafPairs geo t.mem 1 s.addr) = b.flatMap Span.es := by
  refine List.flatMap_congr fun r hr => ?_
  obtain ⟨⟨w, hw, hrep⟩, -⟩ := hst.bottom_holds r hr
  rw [leafPairs_of_rep hw hrep, if_pos rfl]

theorem Stores.inv (h : Stores geo t m) : TreeInv geo t ∧ t.pairs geo = m.entries := by
  cases h with
  | empty hm hnode hheight _ =>
    refine ⟨⟨by simp [hnode, hheight], fun hc => absurd hheight hc⟩, ?_⟩
    rw [Tree.pairs, hheight, hm]
    rfl
  | levels b rest stack occ hheight hm =>
    have hroot : 0 < t.node := by
      obtain ⟨r, hr⟩ : ∃ r, r ∈ addrs (b :: rest) ∧ r = t.node := stack.root_mem
      have := stack.live r hr.1
      omega
    have hleaves := leafPairs_bottom stack
    cases rest with
    | nil =>
      obtain ⟨r, rfl, hr⟩ := stack.linked
      have hleaf := LevelInv.leaf (n := 1) stack fun r hr => by
        have := occ _ List.mem_cons_self r hr
        simpa using this
      rw [Tree.pairs, hheight, hm, ← hleaves]
      refine ⟨⟨by omega, fun _ => ?_⟩, by simp [hr]⟩
      rw [hheight, ← hr]
      exact hleaf.subtree r (by simp)
    | cons u rest =>
      have htwo : ∀ l ∈ b :: u :: rest, ∀ r ∈ l, 2 ≤ r.es.length := by
        intro l hl r hr
        have := occ l hl r hr
        simpa using this
      have hleaf := LevelInv.leaf (n := 2) stack (htwo b List.mem_cons_self)
      obtain ⟨h1, h2⟩ := LevelInv.root (u :: rest) (h := 0) stack hleaf
        fun l hl => htwo l (List.mem_cons_of_mem _ hl)
      rw [Nat.zero_add] at h1 h2
      have hne : t.height ≠ 1 := by
        rw [hheight, List.length_cons]
        omega
      refine ⟨⟨by omega, fun _ => ?_⟩, ?_⟩
      · rw [if_neg hne, hheight]
        exact h1
      · rw [Tree.pairs, hheight, h2, hm, ← hleaves]

/-- The trees that insertions of absent keys, with any failing allocations, and removals of
stored keys can reach from `btree_init`. -/
inductive Reachable (geo : Geo) : Tree → Prop
  | init (fails : List Bool) : Reachable geo (btreeInit fails)
  | insert {t t' : Tree} {k : Key} {v : Nat} {err : Int} (h : Reachable geo t)
      (hk : k.length = geo.keylen) (habs : ∀ e ∈ t.pairs geo, e.1 ≠ k) (hv : v ≠ 0)
      (hrun : btreeInsert geo (.ext k) v t = .ok err t') : Reachable geo t'
  | remove {t t' : Tree} {k : Key} {r : Nat} (h : Reachable geo t)
      (hk : ∃ e ∈ t.pairs geo, e.1 = k) (hrun : btreeRemove geo (.ext k) t = .ok r t') :
      Reachable geo t'

/-- The calls made on a tree: an absent key with a value that is not `NULL` to insert, a stored
one to remove. -/
def Op.Permitted (geo : Geo) (t : Tree) : Op → Prop
  | .insert k v => k.length = geo.keylen ∧ (∀ e ∈ t.pairs geo, e.1 ≠ k) ∧ v ≠ 0
  | .remove k => ∃ e ∈ t.pairs geo, e.1 = k
  | .lookup k => k.length = geo.keylen
  | .last => True

/-- Every call is permitted on the tree the earlier ones have left, failed insertions included. -/
def PermittedRun (geo : Geo) : List Op → Tree → Prop
  | [], _ => True
  | op :: ops, t => op.Permitted geo t ∧ ∀ r t', op.run geo t = .ok r t' → PermittedRun geo ops t'

/-- Insertions of `n` keys from `first` on, the last one first. -/
def insertions (first n : Nat) : List Op :=
  (List.range' first n).reverse.map fun k => .insert [k] k

/-- The tree that a sequence of calls from `btree_init` on leaves. -/
def treeAfter (geo : Geo) (fails : List Bool) (ops : List Op) : Tree :=
  stateOf (runOps geo ops) (btreeInit fails)

instance Op.Permitted.decidable (geo : Geo) (t : Tree) : ∀ op, Decidable (Op.Permitted geo t op)
  | .insert _ _ => inferInstanceAs (Decidable (_ ∧ _ ∧ _))
  | .remove k => inferInstanceAs (Decidable (∃ e ∈ t.pairs geo, e.1 = k))
  | .lookup _ => inferInstanceAs (Decidable (_ = _))
  | .last => inferInstanceAs (Decidable True)

/-- Whether a sequence of calls is permitted can be found out by making them. -/
instance PermittedRun.decidable (geo : Geo) : ∀ ops t, Decidable (PermittedRun geo ops t)
  | [], _ => inferInstanceAs (Decidable True)
  | op :: ops, t =>
    match hrun : op.run geo t with
    | .ok r t' =>
      have := PermittedRun.decidable geo ops t'
      decidable_of_iff (op.Permitted geo t ∧ PermittedRun geo ops t') (and_congr_right fun _ => by
        simp [hrun])
    | .error _ _ => decidable_of_iff (op.Permitted geo t) (by simp [PermittedRun, hrun])

theorem Stores.permitted (h : Stores geo t m) {op : Op} (hop : op.Permitted geo t) :
    op.Allowed geo m.get := by
  have hpairs := h.inv.2
  cases op with
  | insert k v =>
    obtain ⟨hk, habs, hv⟩ := hop
    rw [hpairs, ← OrdMap.get_eq_none] at habs
    exact ⟨hk, habs, hv⟩
  | remove k =>
    obtain ⟨e, he, rfl⟩ := hop
    rw [hpairs] at he
    show m.get e.1 ≠ none
    rw [OrdMap.mem_entries.1 (show (e.1, e.2) ∈ m.entries from he)]
    simp
  | lookup k => exact hop
  | last => trivial

theorem bind_ok {α β : Type} {p : TreeM α} {f : α → TreeM β} {a : α} {t' : Tree}
    (h : p t = .ok a t') : (p >>= f) t = f a t' := by
  show EStateM.bind p f t = _
  unfold EStateM.bind
  rw [h]

theorem Reachable.stores (hgeo : geo.Ok) (h : Reachable geo t) : ∃ m, Stores geo t m := by
  induction h with
  | init fails => exact ⟨_, stores_init geo fails⟩
  | insert _ hk habs hv hrun ih =>
    obtain ⟨m, hm⟩ := ih
    rw [hm.inv.2, ← OrdMap.get_eq_none] at habs
    rcases (btreeInsert_spec hgeo hm hk habs hv).of_ok hrun with h | h
    · exact ⟨_, h.2.1⟩
    · exact ⟨_, h.2.1⟩
  | remove _ hk hrun ih =>
    obtain ⟨m, hm⟩ := ih
    obtain ⟨e, he, rfl⟩ := hk
    rw [hm.inv.2] at he
    exact ⟨_, ((btreeRemove_spec hgeo hm (OrdMap.mem_entries.1 he)).of_ok hrun).2.1⟩

theorem map_ok {α β : Type} {p : TreeM α} {f : α → β} {b : β} {t' : Tree}
    (h : (f <$> p) t = .ok b t') : ∃ a, p t = .ok a t' := by
  change EStateM.map f p t = _ at h
  unfold EStateM.map at h
  cases hp : p t with
  | ok a t1 =>
    rw [hp] at h
    cases h
    exact ⟨a, rfl⟩
  | error e t1 =>
    rw [hp] at h
    cases h

/-- A permitted call leaves a reachable tree; the queries leave the one they find. -/
theorem Reachable.call (hgeo : geo.Ok) (h : Reachable geo t) {op : Op}
    (hop : op.Permitted geo t) {r : Result} {t' : Tree} (hrun : op.run geo t = .ok r t') :
    Reachable geo t' := by
  obtain ⟨m, hm⟩ := h.stores hgeo
  cases op with
  | insert k v =>
    obtain ⟨hk, habs, hv⟩ := hop
    obtain ⟨err, hins⟩ := map_ok hrun
    exact .insert h hk habs hv hins
  | remove k =>
    obtain ⟨v, hrem⟩ := map_ok hrun
    exact .remove h hop hrem
  | lookup k =>
    obtain ⟨v, hlook⟩ := map_ok hrun
    obtain ⟨rfl, -⟩ := (btreeLookup_spec hm hop).of_ok hlook
    exact h
  | last =>
    have hlast : Runs (Op.last.run geo) (fun _ t' => t' = t) t := by
      rw [Op.run, Runs, wp_bind]
      apply (btreeLast_spec hm).imp
      rintro (_ | p) _ ⟨rfl, ho⟩
      · rfl
      · obtain ⟨e, -, hp⟩ := ho
        simp only [wp_bind, wp_readKey hp, wp_pure]
    rw [hlast.of_ok hrun]
    exact h

/-- A permitted sequence of calls returns, and leaves a reachable tree. -/
theorem Reachable.run (hgeo : geo.Ok) (ops : List Op) : ∀ {t : Tree}, Reachable geo t →
    PermittedRun geo ops t → ∃ rs t', runOps geo ops t = .ok rs t' ∧ Reachable geo t' := by
  induction ops with
  | nil => exact fun h _ => ⟨[], _, rfl, h⟩
  | cons op ops ih =>
    intro t h hops
    obtain ⟨m, hm⟩ := h.stores hgeo
    obtain ⟨r, t1, hr, -⟩ := (op.run_outcome hgeo hm (hm.permitted hops.1)).ok
    have h1 := h.call hgeo hops.1 hr
    obtain ⟨rs, t2, hrs, h2⟩ := ih h1 (hops.2 r t1 hr)
    refine ⟨r :: rs, t2, ?_, h2⟩
    rw [runOps, bind_ok hr, bind_ok hrs]
    rfl

theorem reachable_treeAfter (hgeo : geo.Ok) {fails : List Bool} {ops : List Op}
    (hops : PermittedRun geo ops (btreeInit fails)) : Reachable geo (treeAfter geo fails ops) := by
  obtain ⟨rs, t, hrun, h⟩ := Reachable.run hgeo ops (.init fails) hops
  unfold treeAfter stateOf
  rw [hrun]
  exact h

/-- Every reachable tree satisfies the representation invariant, and one of height `h ≥ 2`
stores at least `2 ^ h` pairs. -/
theorem reachable_treeInv (geo : Geo) (hgeo : 4 ≤ geo.noPairs) (t : Tree)
    (h : Reachable geo t) :
    TreeInv geo t ∧ (2 ≤ t.height → 2 ^ t.height ≤ (t.pairs geo).length) := by
  obtain ⟨m, hm⟩ := h.stores ⟨hgeo⟩
  have hinv := hm.inv.1
  refine ⟨hinv, fun hh => ?_⟩
  have hroot := hinv.root (by omega)
  rw [if_neg (by omega)] at hroot
  exact hroot.two_pow_le

/-- Twelve pairs fill a tree of height three; the removal leaves one pair in a leaf, which is merged
with its neighbour. -/
def threeLevels : List Op := insertions 1 12 ++ [.remove [5]]

theorem reachable_treeInv_three_levels :
    let t := treeAfter ⟨1, 4⟩ [] threeLevels
    Reachable ⟨1, 4⟩ t ∧ TreeInv ⟨1, 4⟩ t ∧ t.height = 3 ∧ 2 ^ 3 ≤ (t.pairs ⟨1, 4⟩).length := by
  have ht : Reachable ⟨1, 4⟩ (treeAfter ⟨1, 4⟩ [] threeLevels) :=
    reachable_treeAfter ⟨by decide⟩ (by decide +kernel)
  have hheight : (treeAfter ⟨1, 4⟩ [] threeLevels).height = 3 := by decide +kernel
  generalize treeAfter ⟨1, 4⟩ [] threeLevels = t at ht hheight ⊢
  obtain ⟨hinv, htwo⟩ := reachable_treeInv ⟨1, 4⟩ (by decide) t ht
  rw [hheight] at htwo
  exact ⟨ht, hinv, hheight, htwo (by decide)⟩

end Reach

end Logfs.Btree
