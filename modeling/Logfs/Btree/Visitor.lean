import Logfs.Btree.Concat
import Logfs.Btree.Merge

/-!
# Visitors

`__btree_for_each` walks over the leaves, from the greatest key down, and hands each pair
to a function of the caller.  It ends in each node at the first value that is `NULL`.  The
grim visitor frees every node behind it.
-/

namespace Logfs.Btree

open Levels

/-! ## The walk -/

/-- The arguments of a call of `func`. -/
structure Visit where
  elem : Nat
  opaqueArg : Int
  key : Key
  index : Nat
  func2 : Nat
deriving DecidableEq, Repr

/-- `empty`. -/
def empty {σ : Type} (_ : Visit) (x : σ) : σ := x

/-- The count, and what `func` makes of the data of the caller. -/
abbrev Walked (σ : Type) := Nat × σ

section Walk

variable {σ : Type}

/-- The loop of `__btree_for_each` over the slots of `node`, `n` of them from `i` on; `turn` gets
the value and the key of a slot. -/
def forEachLoop (geo : Geo) (node : Nat) (turn : Nat → KeyPtr → Walked σ → TreeM (Walked σ)) :
    Nat → Nat → Walked σ → TreeM (Walked σ)
  | 0, _, r => pure r
  | n + 1, i, r => do
    let w ← load node
    let child := bval geo w i
    if child = 0 then pure r
    else do
      let r ← turn child (.slot node i) r
      forEachLoop geo node turn n (i + 1) r

/-- A turn in a leaf. -/
def callFunc (geo : Geo) (func : Visit → σ → σ) (opaqueArg : Int) (func2 child : Nat) (key : KeyPtr)
    (r : Walked σ) : TreeM (Walked σ) := do
  let k ← readKey geo key
  pure (r.1 + 1, func ⟨child, opaqueArg, k, r.1, func2⟩ r.2)

/-- `if (reap) free(node);` -/
def reapNode (reap : Bool) (node : Nat) : TreeM Unit := if reap then free node else pure ()

/-- `__btree_for_each` on a node with `h` levels below it. -/
def btreeForEach (geo : Geo) (func : Visit → σ → σ) (opaqueArg : Int) (func2 : Nat) (reap : Bool) :
    Nat → Nat → Walked σ → TreeM (Walked σ)
  | 0, node, r => do
    let r ← forEachLoop geo node (callFunc geo func opaqueArg func2) geo.noPairs 0 r
    reapNode reap node
    pure r
  | h + 1, node, r => do
    let r ← forEachLoop geo node
      (fun child _ r => btreeForEach geo func opaqueArg func2 reap h child r) geo.noPairs 0 r
    reapNode reap node
    pure r

/-- What both visitors begin with; `x` is the data of the caller. -/
def walkRoot (geo : Geo) (opaqueArg : Int) (func : Visit → σ → σ) (func2 : Nat) (reap : Bool)
    (x : σ) : TreeM (Walked σ) := do
  let func := if func2 = 0 then empty else func
  let t ← get
  if t.node ≠ 0 then btreeForEach geo func opaqueArg func2 reap (t.height - 1) t.node (0, x)
  else pure (0, x)

/-- `btree_visitor`. -/
def btreeVisitor (geo : Geo) (opaqueArg : Int) (func : Visit → σ → σ) (func2 : Nat) (x : σ) :
    TreeM (Walked σ) := walkRoot geo opaqueArg func func2 false x

/-- `btree_grim_visitor`. -/
def btreeGrimVisitor (geo : Geo) (opaqueArg : Int) (func : Visit → σ → σ) (func2 : Nat) (x : σ) :
    TreeM (Walked σ) := do
  let r ← walkRoot geo opaqueArg func func2 true x
  modify fun t => { t with node := 0, height := 0 }
  pure r

end Walk

/-! ## The nodes of a tree -/

/-- The nodes of the subtree of height `h` at `a`. -/
def nodesUnder (geo : Geo) (mem : Nat → Option Node) : Nat → Nat → List Nat
  | 0, _ => []
  | h + 1, a =>
    match mem a with
    | none => [a]
    | some w => a :: (if h = 0 then []
      else (usedPairs geo w).flatMap fun e => nodesUnder geo mem h e.2)

section Nodes

variable {geo : Geo} {t : Tree} {w : Node} {es : Entries} {mem : Nat → Option Node} {a h : Nat}
  {b u : Level} {rest : List Level} {m : OrdMap Key Nat}

theorem nodesUnder_of_rep (hw : mem a = some w) (hrep : Rep geo w es) :
    nodesUnder geo mem (h + 1) a =
      a :: (if h = 0 then [] else es.flatMap fun e => nodesUnder geo mem h e.2) := by
  simp only [nodesUnder, hw, hrep.usedPairs]

/-- The invariant of a node gives back its pairs. -/
theorem NodeInv.rep (h : NodeInv geo w) : Rep geo w (usedPairs geo w) :=
  Filled.rep ⟨rfl, h.unused⟩

/-- The nodes of a level and of what is below it. -/
theorem nodesUnder_up (hst : Stack geo t (b :: u :: rest)) (hh : h ≠ 0) :
    List.Perm (u.flatMap fun r => nodesUnder geo t.mem (h + 1) r.addr)
      (u.map Span.addr ++ b.flatMap fun s => nodesUnder geo t.mem h s.addr) := by
  have hr : ∀ r ∈ u, nodesUnder geo t.mem (h + 1) r.addr =
      r.addr :: (kidsOf r.rng r.es).flatMap fun c => nodesUnder geo t.mem h c.val := by
    intro r hr
    obtain ⟨⟨w, hw, hrep⟩, -⟩ := hst.tail.bottom_holds r hr
    rw [nodesUnder_of_rep hw hrep, if_neg hh]
    conv_lhs => rw [← kidsOf_entries r.rng r.es]
    rw [List.flatMap_map]
    rfl
  have hb : (b.flatMap fun s => nodesUnder geo t.mem h s.addr) =
      u.flatMap fun r => (kidsOf r.rng r.es).flatMap fun c => nodesUnder geo t.mem h c.val := by
    rw [← links_flatMap (f := fun a => nodesUnder geo t.mem h a) hst.links, kids,
      List.flatMap_assoc]
  rw [hb, List.flatMap_congr hr]
  clear hr hb hst
  induction u with
  | nil => exact .refl _
  | cons r u ih =>
    simp only [List.flatMap_cons, List.map_cons, List.cons_append]
    refine .cons _ ?_
    refine (List.Perm.append_left _ ih).trans ?_
    rw [← List.append_assoc, ← List.append_assoc]
    exact List.perm_append_comm.append_right _

/-- No node is in a tree twice. -/
theorem Stack.nodes_perm : ∀ (rest : List Level) {h : Nat} {b : Level}, Stack geo t (b :: rest) →
    List.Perm (nodesUnder geo t.mem (h + 1 + rest.length) t.node)
      (addrs rest ++ b.flatMap fun s => nodesUnder geo t.mem (h + 1) s.addr) := by
  intro rest
  induction rest with
  | nil =>
    intro h b hst
    obtain ⟨r, rfl, hr⟩ := hst.linked
    rw [← hr]
    simp
  | cons u rest ih =>
    intro h b hst
    rw [show h + 1 + (u :: rest).length = h + 1 + 1 + rest.length by rw [List.length_cons]; omega]
    refine (ih hst.tail).trans ?_
    refine ((nodesUnder_up hst (Nat.succ_ne_zero h)).append_left _).trans ?_
    rw [addrs_cons, ← List.append_assoc]
    exact List.perm_append_comm.append_right _

theorem Stores.nodes_nodup (h : Stores geo t m) :
    (nodesUnder geo t.mem t.height t.node).Nodup := by
  cases h with
  | empty _ _ hheight _ =>
    rw [hheight]
    exact List.nodup_nil
  | levels b rest stack _ hheight _ =>
    have hperm := stack.nodes_perm rest (h := 0)
    rw [Nat.zero_add, ← hheight] at hperm
    rw [hperm.nodup_iff]
    have hb : (b.flatMap fun s => nodesUnder geo t.mem 1 s.addr) = b.map Span.addr := by
      rw [List.map_eq_flatMap]
      refine List.flatMap_congr fun r hr => ?_
      obtain ⟨⟨w, hw, hrep⟩, -⟩ := stack.bottom_holds r hr
      rw [nodesUnder_of_rep hw hrep, if_pos rfl]
    rw [hb, List.perm_append_comm.nodup_iff, ← addrs_cons]
    exact stack.nodup

end Nodes

/-! ## What a walk does -/

/-- The calls for some pairs, in order. -/
def callAll {σ : Type} (func : Visit → σ → σ) (opaqueArg : Int) (func2 : Nat) (r : Walked σ)
    (es : Entries) : Walked σ :=
  es.foldl (fun r e => (r.1 + 1, func ⟨e.2, opaqueArg, e.1, r.1, func2⟩ r.2)) r

/-- The nodes at `A` are freed if `reap` is set. -/
def Tree.reaped (t : Tree) (reap : Bool) (A : List Nat) : Tree :=
  { t with mem := fun a => if reap = true ∧ a ∈ A then none else t.mem a }

section Walks

variable {σ : Type} {geo : Geo} {t : Tree} {w : Node} {es A B : Entries} {mem : Nat → Option Node}
  {a h n : Nat} {func : Visit → σ → σ} {opaqueArg : Int} {func2 : Nat} {reap : Bool}
  {r : Walked σ} {L M : List Nat}

theorem callAll_flatMap (f : Key × Nat → Entries) (es : Entries) : ∀ r : Walked σ,
    callAll func opaqueArg func2 r (es.flatMap f) =
      es.foldl (fun r e => callAll func opaqueArg func2 r (f e)) r := by
  induction es with
  | nil => exact fun _ => rfl
  | cons e es ih =>
    intro r
    rw [List.flatMap_cons, List.foldl_cons, ← ih]
    exact List.foldl_append ..

theorem reaped_nil (t : Tree) (reap : Bool) : t.reaped reap [] = t := by
  simp [Tree.reaped]

theorem reaped_append (t : Tree) : (t.reaped reap L).reaped reap M = t.reaped reap (L ++ M) := by
  unfold Tree.reaped
  congr 1
  funext a
  dsimp only
  by_cases h1 : reap = true ∧ a ∈ M
  · rw [if_pos h1, if_pos ⟨h1.1, List.mem_append_right _ h1.2⟩]
  · rw [if_neg h1]
    by_cases h2 : reap = true ∧ a ∈ L
    · rw [if_pos h2, if_pos ⟨h2.1, List.mem_append_left _ h2.2⟩]
    · rw [if_neg h2, if_neg]
      rintro ⟨hr, ha⟩
      exact (List.mem_append.1 ha).elim (fun ha => h2 ⟨hr, ha⟩) fun ha => h1 ⟨hr, ha⟩

theorem reaped_congr (h : ∀ x, x ∈ L ↔ x ∈ M) : t.reaped reap L = t.reaped reap M := by
  unfold Tree.reaped
  simp only [h]

theorem reaped_mem (ha : a ∉ L) : (t.reaped reap L).mem a = t.mem a := if_neg fun h => ha h.2

theorem wp_reapNode {Q : Unit → Tree → Prop} {E : Stop → Tree → Prop} (hw : t.mem a = some w) :
    Wp (reapNode reap a) Q E t ↔ Q () (t.reaped reap [a]) := by
  unfold reapNode
  cases reap with
  | false => simp [Tree.reaped]
  | true =>
    simp only [if_true]
    rw [wp_free hw]
    have : ({ t with mem := Function.update t.mem a none } : Tree) = t.reaped true [a] := by
      unfold Tree.reaped
      congr 1
      funext x
      simp [Function.update_apply]
    rw [this]

/-- The loop makes one turn for each pair, when the turns leave the node and the subtrees of the
later pairs alone. -/
theorem forEachLoop_spec {turn : Nat → KeyPtr → Walked σ → TreeM (Walked σ)} (reap : Bool)
    (mem : Nat → Option Node) (call : Walked σ → Key × Nat → Walked σ)
    (nodes : Key × Nat → List Nat) (hrep : Rep geo w es)
    (hturn : ∀ A e B, es = A ++ e :: B → ∀ r t, t.mem a = some w →
      (∀ x ∈ nodes e, t.mem x = mem x) →
      Runs (turn e.2 (.slot a A.length) r)
        (fun r' t' => r' = call r e ∧ t' = t.reaped reap (nodes e)) t) :
    ∀ (B A : Entries), es = A ++ B → ∀ n, A.length + n = geo.noPairs →
      (B.flatMap nodes).Nodup → a ∉ B.flatMap nodes → ∀ r t, t.mem a = some w →
      (∀ x ∈ B.flatMap nodes, t.mem x = mem x) →
      Runs (forEachLoop geo a turn n A.length r)
        (fun r' t' => r' = B.foldl call r ∧ t' = t.reaped reap (B.flatMap nodes)) t := by
  intro B
  induction B with
  | nil =>
    intro A hes n hn _ _ r t hw _
    simp only [List.flatMap_nil, reaped_nil]
    cases n with
    | zero => exact ⟨rfl, rfl⟩
    | succ n =>
      -- the first slot that is not used
      rw [List.append_nil] at hes
      unfold forEachLoop
      rw [Runs, wp_bind, wp_load hw]
      dsimp only
      rw [hrep.bval_unused (by rw [hes]) (by omega), if_pos rfl, wp_pure]
      exact ⟨rfl, rfl⟩
  | cons e B ih =>
    intro A hes n hn hnd ha r t hw hmem
    have hle := hrep.length_le
    rw [hes, List.length_append, List.length_cons] at hle
    obtain ⟨n, rfl⟩ : ∃ n', n = n' + 1 := ⟨n - 1, by omega⟩
    rw [List.flatMap_cons] at hnd ha hmem
    obtain ⟨-, hndB, hdis⟩ := List.nodup_append.1 hnd
    have hval : bval geo w A.length = e.2 := by
      rw [hes] at hrep
      exact hrep.bval_append
    have hnz : e.2 ≠ 0 := (hrep.entry e (by simp [hes])).2
    unfold forEachLoop
    rw [Runs, wp_bind, wp_load hw]
    dsimp only
    rw [hval, if_neg hnz]
    refine (hturn A e B hes r t hw fun x hx => hmem x (List.mem_append_left _ hx)).bind ?_
    rintro _ _ ⟨rfl, rfl⟩
    have hkeep : ∀ x, x ∉ nodes e → (t.reaped reap (nodes e)).mem x = t.mem x := fun x hx =>
      reaped_mem hx
    have := ih (A ++ [e]) (by simp [hes]) n (by simp; omega) hndB
      (fun hc => ha (List.mem_append_right _ hc)) (call r e)
      (t.reaped reap (nodes e))
      ((hkeep a fun hc => ha (List.mem_append_left _ hc)).trans hw)
      fun x hx => (hkeep x fun hc => hdis x hc x hx rfl).trans
        (hmem x (List.mem_append_right _ hx))
    rw [List.length_append, List.length_singleton] at this
    refine this.imp ?_
    rintro _ _ ⟨rfl, rfl⟩
    exact ⟨rfl, by rw [List.flatMap_cons, reaped_append]⟩

/-- A walk over a subtree calls `func` for the pairs in its leaves, and frees its nodes if `reap`
is set. -/
theorem btreeForEach_spec : ∀ (h : Nat) {a n : Nat}, SubtreeInv geo mem (h + 1) n a →
    (nodesUnder geo mem (h + 1) a).Nodup → ∀ (r : Walked σ) (t : Tree),
      (∀ x ∈ nodesUnder geo mem (h + 1) a, t.mem x = mem x) →
      Runs (btreeForEach geo func opaqueArg func2 reap h a r) (fun r' t' =>
        r' = callAll func opaqueArg func2 r (leafPairs geo mem (h + 1) a) ∧
          t' = t.reaped reap (nodesUnder geo mem (h + 1) a)) t := by
  intro h
  induction h with
  | zero =>
    rintro a n ⟨w, hw, hinv, -, -⟩ _ r t hmem
    have hrep := hinv.rep
    rw [nodesUnder_of_rep hw hrep, if_pos rfl] at hmem ⊢
    rw [leafPairs_of_rep hw hrep, if_pos rfl]
    have hwt : t.mem a = some w := (hmem a (by simp)).trans hw
    unfold btreeForEach
    have hflat : ((usedPairs geo w).flatMap fun _ => ([] : List Nat)) = [] := by simp
    refine (forEachLoop_spec reap mem (fun r e => callAll func opaqueArg func2 r [e])
      (fun _ => []) hrep ?_ (usedPairs geo w) [] rfl geo.noPairs (Nat.zero_add _)
      (by rw [hflat]; exact List.nodup_nil) (by rw [hflat]; exact List.not_mem_nil) r t hwt
      (by rw [hflat]; simp)).bind ?_
    · intro A e B hes r t hw _
      have hkey : bkey geo w A.length = e.1 := by
        rw [hes] at hrep
        exact hrep.bkey_append
      unfold callFunc readKey
      simp only [Runs, wp_bind, wp_load hw, wp_pure, hkey, reaped_nil]
      exact ⟨rfl, trivial⟩
    · rintro _ _ ⟨rfl, rfl⟩
      rw [hflat, reaped_nil, wp_bind, wp_reapNode hwt, wp_pure]
      exact ⟨rfl, rfl⟩
  | succ h ih =>
    rintro a n ⟨w, hw, hinv, -, hkids⟩ hnd r t hmem
    have hrep := hinv.rep
    rw [nodesUnder_of_rep hw hrep, if_neg (Nat.succ_ne_zero h)] at hmem hnd ⊢
    rw [leafPairs_of_rep hw hrep, if_neg (Nat.succ_ne_zero h)]
    obtain ⟨ha, hndB⟩ := List.nodup_cons.1 hnd
    have hwt : t.mem a = some w := (hmem a (by simp)).trans hw
    unfold btreeForEach
    refine (forEachLoop_spec reap mem
      (fun r e => callAll func opaqueArg func2 r (leafPairs geo mem (h + 1) e.2))
      (fun e => nodesUnder geo mem (h + 1) e.2) hrep ?_
      (usedPairs geo w) [] rfl geo.noPairs (Nat.zero_add _) hndB ha r t hwt
      fun x hx => hmem x (List.mem_cons_of_mem _ hx)).bind ?_
    · intro A e B hes r t _ hmem
      have hlt : A.length < getfill geo w 0 := by
        rw [← usedPairs_length, hes]
        simp
      have hval : bval geo w A.length = e.2 := by
        rw [hes] at hrep
        exact hrep.bval_append
      have hsub := (hkids (Nat.succ_ne_zero h) A.length hlt).1
      rw [hval] at hsub
      refine ih hsub ?_ r t hmem
      exact (List.nodup_flatMap.1 hndB).1 e (by simp [hes])
    · rintro _ _ ⟨rfl, rfl⟩
      rw [wp_bind, wp_reapNode ((reaped_mem ha).trans hwt), wp_pure, reaped_append]
      exact ⟨(callAll_flatMap _ _ r).symm, reaped_congr fun x => by
        rw [List.mem_append, List.mem_singleton, List.mem_cons, or_comm]⟩

end Walks

/-! ## The trees there are -/

section Produce

variable {geo : Geo} {t v : Tree} {m mt mv : OrdMap Key Nat}

/-- The trees that insertions of absent keys, removals of stored keys, merges of trees that have
no key in common, and grim visitors produce from `btree_init`, with any failing allocations. -/
inductive Produced (geo : Geo) : Tree → Prop
  | init (fails : List Bool) : Produced geo (btreeInit fails)
  | insert {t t' : Tree} {k : Key} {v : Nat} {err : Int} (h : Produced geo t)
      (hk : k.length = geo.keylen) (habs : ∀ e ∈ t.pairs geo, e.1 ≠ k) (hv : v ≠ 0)
      (hrun : btreeInsert geo (.ext k) v t = .ok err t') : Produced geo t'
  | remove {t t' : Tree} {k : Key} {r : Nat} (h : Produced geo t)
      (hk : ∃ e ∈ t.pairs geo, e.1 = k) (hrun : btreeRemove geo (.ext k) t = .ok r t') :
      Produced geo t'
  | target {t v : Tree} {turns : Nat} {err : Int} {s' : Trees} (ht : Produced geo t)
      (hv : Produced geo v) (hdis : ∀ e ∈ t.pairs geo, ∀ e' ∈ v.pairs geo, e.1 ≠ e'.1)
      (hturns : (v.pairs geo).length < turns)
      (hrun : btreeMerge geo turns ⟨t, v⟩ = .ok err s') : Produced geo s'.target
  | victim {t v : Tree} {turns : Nat} {err : Int} {s' : Trees} (ht : Produced geo t)
      (hv : Produced geo v) (hdis : ∀ e ∈ t.pairs geo, ∀ e' ∈ v.pairs geo, e.1 ≠ e'.1)
      (hturns : (v.pairs geo).length < turns)
      (hrun : btreeMerge geo turns ⟨t, v⟩ = .ok err s') : Produced geo s'.victim
  | grim {σ : Type} {t t' : Tree} {opaqueArg : Int} {func : Visit → σ → σ} {func2 : Nat} {x : σ}
      {r : Walked σ} (h : Produced geo t)
      (hrun : btreeGrimVisitor geo opaqueArg func func2 x t = .ok r t') : Produced geo t'

theorem Reachable.produced (h : Reachable geo t) : Produced geo t := by
  induction h with
  | init fails => exact .init fails
  | insert _ hk habs hv hrun ih => exact .insert ih hk habs hv hrun
  | remove _ hk hrun ih => exact .remove ih hk hrun

/-- Both trees of a merge are in order afterwards. -/
theorem btreeMerge_stores (hgeo : geo.Ok) {turns : Nat} (ht : Stores geo t mt)
    (hv : Stores geo v mv) (hdis : ∀ e ∈ t.pairs geo, ∀ e' ∈ v.pairs geo, e.1 ≠ e'.1)
    (hturns : (v.pairs geo).length < turns) :
    Runs (btreeMerge geo turns)
      (fun _ s' => ∃ mt' mv', Stores geo s'.target mt' ∧ Stores geo s'.victim mv') ⟨t, v⟩ := by
  rw [ht.inv.2, hv.inv.2] at hdis
  rw [hv.inv.2] at hturns
  unfold btreeMerge
  rw [Runs, wp_bind, wp_get, wp_ite]
  refine ⟨fun _ => ?_, fun _ => ?_⟩
  · rw [wp_bind, wp_set, wp_pure]
    exact ⟨mv, _, hv.withFails t.fails, stores_init geo _⟩
  · refine (btreeMergeLoop_spec (s := ⟨t, v⟩) hgeo turns ht hv (fun e he => ?_) hturns).imp ?_
    · exact OrdMap.get_eq_none.2 fun e' he' => hdis e' he' e he
    · rintro err s' ⟨n, mt', mv', hm, -⟩
      exact ⟨mt', mv', hm.target, hm.victim⟩

theorem Stores.next_pos (h : Stores geo t m) : 0 < t.next := by
  cases h with
  | empty _ _ _ hnext => exact hnext
  | levels b rest stack _ _ _ =>
    obtain ⟨a, ha, -⟩ := stack.root_mem
    exact Nat.lt_of_le_of_lt (Nat.zero_le a) (stack.live a ha).2

end Produce

/-! ## Both visitors -/

section Visitors

variable {σ : Type} {geo : Geo} {t : Tree} {m : OrdMap Key Nat} {func : Visit → σ → σ}
  {opaqueArg : Int} {func2 : Nat} {x : σ}

/-- The calls for the pairs `es`, numbered from `n` on. -/
def visits (opaqueArg : Int) (func2 n : Nat) (es : Entries) : List Visit :=
  es.mapIdx fun i e => ⟨e.2, opaqueArg, e.1, n + i, func2⟩

theorem callAll_eq (es : Entries) : ∀ (n : Nat) (x : σ), callAll func opaqueArg func2 (n, x) es =
    (n + es.length, (visits opaqueArg func2 n es).foldl (fun x v => func v x) x) := by
  induction es with
  | nil => exact fun _ _ => rfl
  | cons e es ih =>
    intro n x
    refine (ih (n + 1) (func ⟨e.2, opaqueArg, e.1, n, func2⟩ x)).trans (Prod.ext ?_ ?_)
    · dsimp only
      rw [List.length_cons]
      omega
    · simp only [visits, List.mapIdx_cons, List.foldl_cons, Nat.add_zero, Nat.add_assoc,
        Nat.add_comm 1]

/-- A walk from the root. -/
theorem Stores.walkRoot (h : Stores geo t m) (reap : Bool) :
    Runs (walkRoot geo opaqueArg func func2 reap x) (fun r t' =>
        r = callAll (if func2 = 0 then Btree.empty else func) opaqueArg func2 (0, x) m.entries ∧
        t' = t.reaped reap (nodesUnder geo t.mem t.height t.node)) t := by
  have hpairs := h.inv.2
  have hinv := h.inv.1
  unfold Btree.walkRoot
  rw [Runs, wp_bind, wp_get, wp_ite]
  refine ⟨fun hne => ?_, fun heq => ?_⟩
  · have hheight : t.height ≠ 0 := fun h0 => hne (hinv.empty_iff.1 h0)
    obtain ⟨n, hn⟩ := Nat.exists_eq_succ_of_ne_zero hheight
    have hsub := hinv.root hheight
    have hnd := h.nodes_nodup
    rw [hn] at hsub hnd ⊢
    rw [Nat.succ_sub_one]
    refine (btreeForEach_spec n hsub hnd (0, x) t fun _ _ => rfl).imp ?_
    rintro _ _ ⟨rfl, rfl⟩
    rw [← hpairs, Tree.pairs, hn]
    exact ⟨rfl, rfl⟩
  · have hheight := hinv.empty_iff.2 (not_not.1 heq)
    have hnil : m.entries = [] := by
      rw [← hpairs, Tree.pairs, hheight]
      rfl
    rw [wp_pure, hnil, hheight, nodesUnder, reaped_nil]
    exact ⟨rfl, rfl⟩

theorem btreeVisitor_spec (h : Stores geo t m) :
    Runs (btreeVisitor geo opaqueArg func func2 x) (fun r t' =>
      r = callAll (if func2 = 0 then empty else func) opaqueArg func2 (0, x) m.entries ∧
      t' = t) t := by
  refine (h.walkRoot false).imp ?_
  rintro r _ ⟨hr, rfl⟩
  exact ⟨hr, by simp [Tree.reaped]⟩

theorem btreeGrimVisitor_spec (h : Stores geo t m) :
    Runs (btreeGrimVisitor geo opaqueArg func func2 x) (fun r t' =>
      r = callAll (if func2 = 0 then empty else func) opaqueArg func2 (0, x) m.entries ∧
      t'.node = 0 ∧ t'.height = 0 ∧ t'.fails = t.fails ∧ Stores geo t' OrdMap.empty) t := by
  refine (h.walkRoot true).bind ?_
  rintro r _ ⟨hr, rfl⟩
  rw [wp_bind, wp_modify, wp_pure]
  exact ⟨hr, rfl, rfl, rfl, .empty rfl rfl rfl h.next_pos⟩

theorem Produced.stores (hgeo : geo.Ok) (h : Produced geo t) : ∃ m, Stores geo t m := by
  induction h with
  | init fails => exact ⟨_, stores_init geo fails⟩
  | insert _ hk habs hv hrun ih =>
    obtain ⟨m, hm⟩ := ih
    rw [hm.inv.2, ← OrdMap.get_eq_none] at habs
    rcases (btreeInsert_spec hgeo hm hk habs hv).of_ok hrun with h | h
    · exact ⟨_, h.2.1⟩
    · exact ⟨_, h.2.1⟩
  | remove _ hk hrun ih =>
    obtain ⟨m, hm⟩ := ih
    obtain ⟨e, he, rfl⟩ := hk
    rw [hm.inv.2] at he
    exact ⟨_, ((btreeRemove_spec hgeo hm (OrdMap.mem_entries.1 he)).of_ok hrun).2.1⟩
  | target _ _ hdis hturns hrun iht ihv =>
    obtain ⟨mt, ht⟩ := iht
    obtain ⟨mv, hv⟩ := ihv
    obtain ⟨mt', -, h, -⟩ := (btreeMerge_stores hgeo ht hv hdis hturns).of_ok hrun
    exact ⟨mt', h⟩
  | victim _ _ hdis hturns hrun iht ihv =>
    obtain ⟨mt, ht⟩ := iht
    obtain ⟨mv, hv⟩ := ihv
    obtain ⟨-, mv', -, h⟩ := (btreeMerge_stores hgeo ht hv hdis hturns).of_ok hrun
    exact ⟨mv', h⟩
  | grim _ hrun ih =>
    obtain ⟨m, hm⟩ := ih
    exact ⟨_, ((btreeGrimVisitor_spec hm).of_ok hrun).2.2.2.2⟩

/-- A lookup finds a pair exactly if it is stored. -/
theorem Stores.lookup_iff (h : Stores geo t m) (k : Key) (v : Nat) : (k, v) ∈ m.entries ↔
    k.length = geo.keylen ∧ v ≠ 0 ∧ btreeLookup geo (.ext k) t = .ok v t := by
  rw [OrdMap.mem_entries]
  constructor
  · intro hk
    obtain ⟨r, _, hrun, rfl, rfl⟩ := (btreeLookup_spec h (h.keylen hk)).ok
    rw [hk, Option.getD_some] at hrun
    exact ⟨h.keylen hk, h.val_ne_zero hk, hrun⟩
  · rintro ⟨hlen, hv, hrun⟩
    obtain ⟨-, hr⟩ := (btreeLookup_spec h hlen).of_ok hrun
    cases hk : m.get k with
    | none =>
      rw [hk] at hr
      exact absurd hr hv
    | some v' =>
      rw [hk] at hr
      exact congrArg some hr.symm

/-- Both visitors call the function once for each stored pair, in descending order, with the
numbers from zero on, and return how many there are; the first leaves the tree as it is, the
second leaves an empty one that can be used again. -/
theorem btree_visitors (geo : Geo) (hgeo : 4 ≤ geo.noPairs) (t : Tree) (h : Produced geo t)
    (opaqueArg : Int) (func : Visit → σ → σ) (func2 : Nat) (hf : func2 ≠ 0) (x : σ) :
    ∃ es : Entries,
      (∀ k v, (k, v) ∈ es ↔
        k.length = geo.keylen ∧ v ≠ 0 ∧ btreeLookup geo (.ext k) t = .ok v t) ∧
      (es.Pairwise fun a b => longcmp b.1 a.1 < 0) ∧
      btreeVisitor geo opaqueArg func func2 x t =
        .ok (es.length, (visits opaqueArg func2 0 es).foldl (fun x v => func v x) x) t ∧
      ∃ t', btreeGrimVisitor geo opaqueArg func func2 x t =
          .ok (es.length, (visits opaqueArg func2 0 es).foldl (fun x v => func v x) x) t' ∧
        t'.height = 0 ∧ t'.node = 0 ∧
        ∀ ops, true ∉ t.fails → Allowed geo (fun _ => none) ops →
          ∃ rs t'', runOps geo ops t' = .ok rs t'' ∧ Behaves (fun _ => none) ops rs := by
  obtain ⟨m, hm⟩ := h.stores ⟨hgeo⟩
  refine ⟨m.entries, hm.lookup_iff, ?_, ?_, ?_⟩
  · refine m.sorted.imp_of_mem fun {a b} ha hb hlt => ?_
    rwa [longcmp_lt_zero]
    rw [hm.keylen (OrdMap.mem_entries.1 (show (a.1, a.2) ∈ m.entries from ha)),
      hm.keylen (OrdMap.mem_entries.1 (show (b.1, b.2) ∈ m.entries from hb))]
  · obtain ⟨r, _, hrun, hr, rfl⟩ := (show
      Runs (btreeVisitor geo opaqueArg func func2 x) _ t from btreeVisitor_spec hm).ok
    rwa [hr, if_neg hf, callAll_eq, Nat.zero_add] at hrun
  · obtain ⟨r, t', hrun, hr, hnode, hheight, hfails, hempty⟩ := (btreeGrimVisitor_spec hm).ok
    rw [hr, if_neg hf, callAll_eq, Nat.zero_add] at hrun
    refine ⟨t', hrun, hheight, hnode, fun ops hfs hops => ?_⟩
    exact (runOps_spec ⟨hgeo⟩ ops hempty (hfails ▸ hfs) hops).ok

/-- The visits of a tree of height two with seven pairs. -/
theorem btree_visitors_seven_pairs : let t := treeAfter ⟨1, 4⟩ [] (insertions 1 7)
    let calls := (List.range 7).map fun i => (⟨7 - i, 0, [7 - i], i, 9⟩ : Visit)
    t.height = 2 ∧
      btreeVisitor ⟨1, 4⟩ 0 (fun v (l : List Visit) => l ++ [v]) 9 [] t = .ok (7, calls) t ∧
      ∃ t', btreeGrimVisitor ⟨1, 4⟩ 0 (fun v (l : List Visit) => l ++ [v]) 9 [] t =
          .ok (7, calls) t' ∧ t'.height = 0 ∧ t'.node = 0 := by
  intro t calls
  have ht : Reachable ⟨1, 4⟩ t := reachable_treeAfter ⟨by decide⟩ (by decide +kernel)
  have hheight : t.height = 2 := by decide +kernel
  have hrun := run_eq (show valueOf
    (btreeVisitor ⟨1, 4⟩ 0 (fun v (l : List Visit) => l ++ [v]) 9 []) t = some (7, calls) by
    decide +kernel)
  clear_value t calls
  obtain ⟨es, -, -, hvisit, t', hgrim, hempty, hnode, -⟩ := btree_visitors ⟨1, 4⟩ (by decide) t
    ht.produced 0 (fun v (l : List Visit) => l ++ [v]) 9 (by decide) []
  rw [hvisit] at hrun
  injection hrun with hsame _
  rw [hsame] at hvisit hgrim
  exact ⟨hheight, hvisit, t', hgrim, hempty, hnode⟩

end Visitors

end Logfs.Btree
