import Logfs.Btree.Assert

/-!
# Insertions that run out of memory

An insertion that returns `-ENOMEM` has changed separators only, and only
lowered them.  The tree holds the pairs it held before, at the same height, and
later calls return what they would have returned.
-/

namespace Logfs.Btree

open Levels

/-- The subtrees of height `h` at `a` in two memories have the same values in the same slots; the
keys are the same in the leaves, and above them they may be lower in the second one. -/
def SepsLowered (geo : Geo) (mem mem' : Nat → Option Node) : Nat → Nat → Prop
  | 0, _ => False
  | h + 1, a => ∃ w w', mem a = some w ∧ mem' a = some w' ∧ getfill geo w' 0 = getfill geo w 0 ∧
      ∀ i, i < getfill geo w 0 → bval geo w' i = bval geo w i ∧
        (h = 0 → bkey geo w' i = bkey geo w i) ∧
        (h ≠ 0 → longcmp (bkey geo w' i) (bkey geo w i) ≤ 0 ∧
          SepsLowered geo mem mem' h (bval geo w i))

section Levels

variable {geo : Geo} {t t' : Tree} {b b' u u' : Level} {rest rest' : List Level} {h : Nat}

theorem sepsLowered_leaf (hst : Stack geo t (b :: rest)) (hst' : Stack geo t' (b' :: rest'))
    (hb : List.Forall₂ Span.Le b b') : ∀ r ∈ b, SepsLowered geo t.mem t'.mem 1 r.addr := by
  intro r hr
  obtain ⟨r', hr', hle⟩ := forall₂_mem_right hb.flip hr
  obtain ⟨⟨w, hw, hrep⟩, -⟩ := hst.bottom_holds r hr
  obtain ⟨⟨w', hw', hrep'⟩, -⟩ := hst'.bottom_holds r' hr'
  rw [← hle.addr] at hw'
  rw [← hle.es] at hrep'
  have hfill := hrep.getfill (Nat.zero_le _)
  refine ⟨w, w', hw, hw', by rw [hfill, hrep'.getfill (Nat.zero_le _)], fun i hi => ?_⟩
  rw [hfill] at hi
  exact ⟨by rw [hrep.bval hi, hrep'.bval hi], fun _ => by rw [hrep.bkey hi, hrep'.bkey hi],
    fun hc => absurd rfl hc⟩

/-- From a level to the one above. -/
theorem sepsLowered_up (hst : Stack geo t (b :: u :: rest)) (hst' : Stack geo t' (u' :: rest'))
    (hu : List.Forall₂ SameShape u u')
    (hb : ∀ s ∈ b, SepsLowered geo t.mem t'.mem (h + 1) s.addr) :
    ∀ r ∈ u, SepsLowered geo t.mem t'.mem (h + 2) r.addr := by
  intro r hr
  obtain ⟨r', hr', hsh⟩ := forall₂_mem_right hu.flip hr
  obtain ⟨⟨w, hw, hrep⟩, -⟩ := hst.tail.bottom_holds r hr
  obtain ⟨⟨w', hw', hrep'⟩, -⟩ := hst'.bottom_holds r' hr'
  rw [← hsh.addr] at hw'
  have hfill := hrep.getfill (Nat.zero_le _)
  have hlen := hsh.length
  refine ⟨w, w', hw, hw', by rw [hfill, hrep'.getfill (Nat.zero_le _), hlen], fun i hi => ?_⟩
  rw [hfill] at hi
  obtain ⟨hkey, hval⟩ := (List.forall₂_iff_get.1 hsh.lowered).2 i hi (by omega)
  simp only [List.get_eq_getElem] at hkey hval
  rw [hrep.bval hi, hrep'.bval (by omega), hrep.bkey hi, hrep'.bkey (by omega)]
  have hlow : longcmp r'.es[i].1 r.es[i].1 ≤ 0 := by
    rw [longcmp_le_zero]
    · exact hkey
    · rw [(hrep.entry _ (List.getElem_mem hi)).1, (hrep'.entry _ (List.getElem_mem _)).1]
  refine ⟨hval, fun hc => absurd hc (Nat.succ_ne_zero h), fun _ => ⟨hlow, ?_⟩⟩
  obtain ⟨s, hs, ha, -⟩ := hst.kid_span hr
    (show r.es = r.es.take i ++ r.es[i] :: r.es.drop (i + 1) by simp)
  rw [← ha]
  exact hb s hs

/-- Up to the root. -/
theorem sepsLowered_root : ∀ {rest rest' : List Level} {b b' : Level} {h : Nat},
    Stack geo t (b :: rest) → Stack geo t' (b' :: rest') →
      List.Forall₂ (List.Forall₂ SameShape) rest rest' →
      (∀ s ∈ b, SepsLowered geo t.mem t'.mem (h + 1) s.addr) →
      SepsLowered geo t.mem t'.mem (h + 1 + rest.length) t.node := by
  intro rest
  induction rest with
  | nil =>
    intro rest' b b' h hst _ _ hb
    obtain ⟨r, rfl, hr⟩ := hst.linked
    rw [← hr]
    exact hb r (by simp)
  | cons u rest ih =>
    intro rest' b b' h hst hst' hshape hb
    cases hshape with
    | @cons _ u' _ rest' hu hshape =>
      have := ih (h := h + 1) hst.tail hst'.tail hshape (sepsLowered_up hst hst'.tail hu hb)
      rwa [show h + 1 + 1 + rest.length = h + 1 + (u :: rest).length by
        rw [List.length_cons]; omega] at this

theorem Stack.node_eq {ls ls' : List Level} (hst : Stack geo t (b :: ls))
    (hst' : Stack geo t' (b' :: ls')) (h : List.Forall₂ (List.Forall₂ SameShape) (b :: ls) (b' :: ls')) :
    t'.node = t.node := by
  induction ls generalizing b b' ls' with
  | nil =>
    cases h with
    | cons hb hrest =>
      cases hrest
      obtain ⟨r, rfl, hr⟩ := hst.linked
      obtain ⟨r', rfl, hr'⟩ := hst'.linked
      cases hb with
      | cons hrr _ => rw [← hr, ← hr', hrr.addr]
  | cons u ls ih =>
    cases h with
    | cons _ hrest =>
      cases hrest with
      | cons hu hrest => exact ih hst.tail hst'.tail (.cons hu hrest)

end Levels

section Failing

variable {geo : Geo} {t t' : Tree} {m : OrdMap Key Nat} {k : Key} {v : Nat}

/-- A tree with a height holds a pair. -/
theorem TreeInv.pairs_ne_nil (h : TreeInv geo t) (h0 : t.height ≠ 0) : t.pairs geo ≠ [] := by
  have hroot := h.root h0
  intro hc
  rw [Tree.pairs] at hc
  split_ifs at hroot with h1
  · rw [h1] at hroot hc
    obtain ⟨w, hw, -, hn, -⟩ := hroot
    simp only [leafPairs, hw, if_true] at hc
    have : (usedPairs geo w).length = getfill geo w 0 := usedPairs_length
    rw [hc, List.length_nil] at this
    omega
  · have := hroot.two_pow_le
    rw [hc, List.length_nil] at this
    have := Nat.two_pow_pos t.height
    omega

theorem Stores.height_eq_zero (h : Stores geo t m) : t.height = 0 ↔ m.entries = [] := by
  obtain ⟨hinv, hpairs⟩ := h.inv
  refine ⟨fun h0 => ?_, fun hm => ?_⟩
  · rw [← hpairs, Tree.pairs, h0]
    rfl
  · by_contra hc
    exact hinv.pairs_ne_nil hc (hpairs.trans hm)

/-- The head stayed as it was, and the separators may have been lowered. -/
structure HeadKept (geo : Geo) (t t' : Tree) : Prop where
  node : t'.node = t.node
  height : t'.height = t.height
  seps : t.height ≠ 0 → SepsLowered geo t.mem t'.mem t.height t.node

/-- An insertion that runs out of memory. -/
theorem btreeInsert_failed (hgeo : geo.Ok) (h : Stores geo t m) (hk : k.length = geo.keylen)
    (habs : m.get k = none) (hv : v ≠ 0) :
    Runs (btreeInsert geo (.ext k) v)
      (fun err t' => err ≠ 0 → Stores geo t' m ∧ HeadKept geo t t') t := by
  have hspec := btreeInsert_spec hgeo h hk habs hv
  cases h with
  | empty hm hnode hheight hnext =>
    refine hspec.imp ?_
    rintro err t' (⟨rfl, -, -⟩ | ⟨-, hst, -⟩) herr
    · exact absurd rfl herr
    · have h0 := hst.height_eq_zero.2 hm
      exact ⟨hst, by rw [hnode, hst.inv.1.empty_iff.1 h0], by rw [h0, hheight],
        fun hc => absurd hheight hc⟩
  | levels b rest stack occ hheight hm =>
    have hlevel : Runs (btreeInsert geo (.ext k) v)
        (fun err t' => err ≠ 0 → HeadKept geo t t') t := by
      rw [OrdMap.get_eq_none, hm] at habs
      unfold btreeInsert fuelFor
      rw [Runs, wp_bind, wp_get, ← Runs, insertLevel_retry hv (by omega)]
      refine (insertRetry_spec hgeo _ rest (by omega) stack occ habs
        (keyAt_ext geo t k) trivial hk hv hheight).imp ?_
      rintro err t' (⟨rfl, -⟩ | ⟨-, b', rest', hu⟩) herr
      · exact absurd rfl herr
      · refine ⟨stack.node_eq hu.stack (.cons (spans_le_sameShape hu.bottom) hu.shape), hu.height,
          fun _ => ?_⟩
        rw [hheight]
        exact sepsLowered_root (h := 0) stack hu.stack hu.shape
          (sepsLowered_leaf stack hu.stack hu.bottom)
    refine (hspec.and hlevel).imp ?_
    rintro err t' ⟨⟨rfl, -, -⟩ | ⟨-, hst, -⟩, hhead⟩ herr
    · exact absurd rfl herr
    · exact ⟨hst, hhead herr⟩

/-- The map a tree stands for. -/
def Tree.lookup (geo : Geo) (t : Tree) : FinMap := fun k =>
  ((t.pairs geo).find? fun e => e.1 = k).map Prod.snd

theorem Stores.lookup (h : Stores geo t m) : t.lookup geo = m.get := by
  funext k
  rw [Tree.lookup, h.inv.2, OrdMap.get]
  congr 2
  funext e
  exact decide_eq_decide.2 Iff.rfl

/-- Other answers of the allocator to come. -/
def Tree.withFails (t : Tree) (fails : List Bool) : Tree := { t with fails := fails }

theorem Stores.withFails (h : Stores geo t m) (fails : List Bool) :
    Stores geo (t.withFails fails) m := by
  cases h with
  | empty hm hnode hheight hnext => exact .empty hm hnode hheight hnext
  | levels b rest stack occ hheight hm =>
    exact .levels b rest (stack.of_eq rfl rfl (Nat.le_refl _)) occ hheight hm

/-- A call returns one result on a map. -/
theorem Op.Returns.unique {f : FinMap} {op : Op} {r r' : Result} (hlen : ∀ k, f k ≠ none →
    k.length = geo.keylen) (h : op.Returns f r) (h' : op.Returns f r') : r = r' := by
  cases op with
  | insert k v => exact h.trans h'.symm
  | remove k =>
    obtain ⟨v, hv, rfl⟩ := h
    obtain ⟨v', hv', rfl⟩ := h'
    rw [hv, Option.some_inj] at hv'
    rw [hv']
  | lookup k => exact h.trans h'.symm
  | last =>
    rcases h with ⟨hn, rfl⟩ | ⟨k, hk, hmax, rfl⟩ <;> rcases h' with ⟨hn', rfl⟩ | ⟨k', hk', hmax', rfl⟩
    · rfl
    · exact absurd (hn k') hk'
    · exact absurd (hn' k) hk
    · have h1 := hmax k' hk'
      have h2 := hmax' k hk
      have hl := (hlen k hk).trans (hlen k' hk').symm
      rw [longcmp_le_zero hl.symm] at h1
      rw [longcmp_le_zero hl] at h2
      rw [le_antisymm h2 h1]

/-- With memory to spare, trees with the same pairs answer alike. -/
theorem runOps_alike (hgeo : geo.Ok) (ops : List Op) : ∀ {t t' : Tree} {m m' : OrdMap Key Nat},
    Stores geo t m → Stores geo t' m' → m'.get = m.get → true ∉ t.fails → true ∉ t'.fails →
      Allowed geo m.get ops →
      ∃ rs t1 t2, runOps geo ops t = .ok rs t1 ∧ runOps geo ops t' = .ok rs t2 := by
  induction ops with
  | nil => exact fun _ _ _ _ _ _ => ⟨[], _, _, rfl, rfl⟩
  | cons op ops ih =>
    intro t t' m m' h h' hm hf hf' hops
    obtain ⟨r, t1, hrun, hret, hf1, m1, h1, hm1⟩ := (op.run_spec hgeo h hf hops.1).ok
    obtain ⟨r', t2, hrun', hret', hf2, m2, h2, hm2⟩ :=
      (op.run_spec hgeo h' hf' (hm ▸ hops.1)).ok
    rw [hm] at hret' hm2
    have hlen : ∀ k, m.get k ≠ none → k.length = geo.keylen := by
      intro k hk
      obtain ⟨v, hv⟩ := Option.ne_none_iff_exists'.1 hk
      exact h.keylen hv
    obtain rfl := hret.unique hlen hret'
    obtain ⟨rs, t3, t4, hrs, hrs'⟩ := ih h1 h2 (hm2.trans hm1.symm) hf1 hf2 (hm1 ▸ hops.2)
    refine ⟨r :: rs, t3, t4, ?_, ?_⟩
    · rw [runOps, bind_ok hrun, bind_ok hrs]
      rfl
    · rw [runOps, bind_ok hrun', bind_ok hrs']
      rfl

/-- An insertion that returns `-ENOMEM` keeps the pairs, the height and the invariant; separators
may be lowered.  Later calls behave as on the tree before it: they do to the map what the calls
do, and with memory to spare they return the same. -/
theorem insert_enomem_unchanged (geo : Geo) (hgeo : 4 ≤ geo.noPairs) (t : Tree)
    (h : Reachable geo t) (k : Key) (hk : k.length = geo.keylen)
    (habs : ∀ e ∈ t.pairs geo, e.1 ≠ k) (v : Nat) (hv : v ≠ 0) (t' : Tree)
    (hrun : btreeInsert geo (.ext k) v t = .ok (-ENOMEM) t') :
    t'.pairs geo = t.pairs geo ∧ TreeInv geo t' ∧ HeadKept geo t t' ∧
      (∀ ops, PermittedRun geo ops t' →
        ∃ rs t1, runOps geo ops t' = .ok rs t1 ∧ Follows (t.lookup geo) ops rs) ∧
      ∀ fails ops, true ∉ fails → Allowed geo (t.lookup geo) ops →
        ∃ rs t1 t2, runOps geo ops (t.withFails fails) = .ok rs t1 ∧
          runOps geo ops (t'.withFails fails) = .ok rs t2 := by
  obtain ⟨m, hm⟩ := h.stores ⟨hgeo⟩
  have hget : m.get k = none := by
    rwa [hm.inv.2, ← OrdMap.get_eq_none] at habs
  obtain ⟨hst, hhead⟩ := (btreeInsert_failed ⟨hgeo⟩ hm hk hget hv).of_ok hrun (by decide)
  rw [hm.lookup]
  refine ⟨by rw [hst.inv.2, hm.inv.2], hst.inv.1, hhead, fun ops hops => ?_,
    fun fails ops hf hops => ?_⟩
  · obtain ⟨rs, t1, -, hr, hfol⟩ := runChecked_returns ⟨hgeo⟩ ops hst hops
    exact ⟨rs, t1, hr, hfol⟩
  · exact runOps_alike ⟨hgeo⟩ ops (hm.withFails fails) (hst.withFails fails) rfl hf hf hops

/-- Ten pairs in a tree of height two whose last leaf and whose root are full, with memory for two
more nodes. -/
def tenPairs : Tree :=
  treeAfter ⟨1, 4⟩ (List.replicate 7 false ++ [true]) (insertions 2 10)

/-- Both nodes get their new neighbour, and then there is no memory for a new root. -/
theorem insert_enomem_unchanged_root : let t' := stateOf (btreeInsert ⟨1, 4⟩ (.ext [1]) 1) tenPairs
    btreeInsert ⟨1, 4⟩ (.ext [1]) 1 tenPairs = .ok (-ENOMEM) t' ∧
      t'.pairs ⟨1, 4⟩ = [11, 10, 9, 8, 7, 6, 5, 4, 3, 2].map (fun k => ([k], k)) ∧
      t'.height = 2 ∧ TreeInv ⟨1, 4⟩ t' := by
  have ht : Reachable ⟨1, 4⟩ tenPairs := reachable_treeAfter ⟨by decide⟩ (by decide +kernel)
  have hpairs : tenPairs.pairs ⟨1, 4⟩ =
      [11, 10, 9, 8, 7, 6, 5, 4, 3, 2].map (fun k => ([k], k)) := by decide +kernel
  have hheight : tenPairs.height = 2 := by decide +kernel
  have hrun := run_eq (show valueOf (btreeInsert ⟨1, 4⟩ (.ext [1]) 1) tenPairs = some (-ENOMEM) by
    decide +kernel)
  generalize tenPairs = t at ht hpairs hheight hrun ⊢
  obtain ⟨hsame, hinv, hhead, -⟩ := insert_enomem_unchanged ⟨1, 4⟩ (by decide) t ht [1] rfl
    (by rw [hpairs]; decide) 1 (by decide) _ hrun
  exact ⟨hrun, hsame.trans hpairs, hhead.height.trans hheight, hinv⟩

end Failing

end Logfs.Btree
