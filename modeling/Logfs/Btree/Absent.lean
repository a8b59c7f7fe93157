import Logfs.Btree.Invariant

/-!
# Removing a key that is not stored

`btree_remove_level` takes a key for stored when it compares equal to the slot
`getpos` ends at.  That slot may be unused, and then it holds the key of all zero
words; or it may lie past the last slot, where the value words begin.  In both
cases the node loses its last pair.
-/

namespace Logfs.Btree

open Levels

/-- The kid `find_level` goes to from a node. -/
def childFor (geo : Geo) (w : Node) (k : Key) : Nat :=
  let i := getpos geo w k
  if i = geo.noPairs ∨ bval geo w i = 0 then bval geo w (i - 1) else bval geo w i

/-- The node `find_level` ends at, `n` levels below `a`. -/
def nodeFor (geo : Geo) (mem : Nat → Option Node) (k : Key) : Nat → Nat → Nat
  | 0, a => a
  | n + 1, a => ((mem (nodeFor geo mem k n a)).map fun w => childFor geo w k).getD 0

/-- The leaf a key belongs to. -/
def Tree.leafFor (geo : Geo) (t : Tree) (k : Key) : Option Node :=
  if t.height = 0 then none else t.mem (nodeFor geo t.mem k (t.height - 1) t.node)

/-- A leaf in which an absent key is mistaken for a stored one: the key is all zero and there is
an unused slot, or the leaf is full, all its keys are above, and the key equals the words after
the last slot. -/
def Mistaken (geo : Geo) (w : Node) (k : Key) : Prop :=
  (k = zeroKey geo ∧ getfill geo w 0 < geo.noPairs) ∨
  (getfill geo w 0 = geo.noPairs ∧ (∀ i, i < geo.noPairs → longcmp k (bkey geo w i) < 0) ∧
    k = (List.range geo.keylen).map (bval geo w))

section Leaf

variable {geo : Geo} {w : Node} {es : Entries} {k : Key}

/-- The comparison of `btree_remove_level`, for a key the leaf does not hold. -/
theorem keycmp_absent (hrep : Rep geo w es) (hs : es.Pairwise fun a b => b.1 < a.1)
    (hk : k.length = geo.keylen) (habs : ∀ e ∈ es, e.1 ≠ k) :
    (keycmp geo w (getpos geo w k) k = 0 ↔ Mistaken geo w k) ∧
      (Mistaken geo w k → getpos geo w k = es.length) := by
  obtain ⟨A, B, rfl, hA, hB⟩ := exists_split_absent hs k habs
  obtain ⟨hpos, -, hdup⟩ := insertBody_search hrep hk hA hB
  have hfill := hrep.getfill (Nat.zero_le _)
  have hle := hrep.length_le
  rw [hpos]
  cases B with
  | cons e B =>
    -- the slot holds a smaller key
    have hno : ¬ Mistaken geo w k := by
      have hek := hB e (by simp)
      rintro (⟨rfl, -⟩ | ⟨hfull, hall, -⟩)
      · have hmem := (hrep.entry e (by simp)).1
        exact absurd (zeroKey_le hmem) (not_le.2 hek)
      · have h1 := hall A.length (by rw [← hfull, hfill]; simp)
        rw [longcmp_lt_zero (by simp [hk]), hrep.bkey_append] at h1
        exact lt_asymm h1 hek
    refine ⟨⟨fun hc => absurd ⟨by simp, hc⟩ hdup, fun hc => absurd hc hno⟩, fun hc => absurd hc hno⟩
  | nil =>
    simp only [List.append_nil] at hfill hrep hle ⊢
    refine ⟨?_, fun _ => trivial⟩
    rw [keycmp, longcmp_eq_zero (by simp [hk])]
    unfold Mistaken
    rw [hfill]
    by_cases hfull : A.length = geo.noPairs
    · -- past the last slot lie the values
      have hall : ∀ i, i < geo.noPairs → longcmp k (bkey geo w i) < 0 := by
        intro i hi
        rw [longcmp_lt_zero (by simp [hk]), hrep.bkey (by omega)]
        exact hA _ (List.getElem_mem _)
      rw [hfull, show bkey geo w geo.noPairs = (List.range geo.keylen).map (bval geo w) from rfl]
      constructor
      · exact fun h => Or.inr ⟨rfl, hall, h.symm⟩
      · rintro (⟨-, h⟩ | ⟨-, -, h⟩)
        · exact absurd h (lt_irrefl _)
        · exact h.symm
    · rw [hrep.bkey_unused (Nat.le_refl _) (by omega)]
      constructor
      · exact fun h => Or.inl ⟨h.symm, by omega⟩
      · rintro (⟨h, -⟩ | ⟨h, -⟩)
        · exact h.symm
        · exact absurd h hfull

/-- Removing at the end of the used slots clears the last of them. -/
theorem Rep.remove_end {A : Entries} {e : Key × Nat} (hrep : Rep geo w (A ++ [e])) :
    Rep geo (clearpair geo (shiftRemove geo w (A.length + 1) (A.length + 1)) A.length) A := by
  have h := hrep.remove
  simp only [List.length_append, List.length_singleton, Nat.add_sub_cancel, List.append_nil,
    shiftRemove, Nat.sub_self, forUp_zero] at h ⊢
  rwa [show A.length - (A.length + 1) = 0 by omega, forUp_zero]

end Leaf

section Descent

variable {geo : Geo} {t : Tree} {k : Key} {b P Q : Level} {r : Span Key} {rest : List Level}

/-- One turn of the descent goes to `childFor`. -/
theorem findStep_child {w : Node} {a : Nat} (hw : t.mem a = some w) (hpairs : 0 < geo.noPairs) :
    Wp (findStep geo (.ext k) a) (fun c _ => c = childFor geo w k) (fun _ _ => True) t := by
  unfold findStep childFor
  simp only [readKey, wp_bind, wp_pure, wp_load hw]
  show Wp (if getpos geo w k = geo.noPairs ∨ bval geo w (getpos geo w k) = 0 then _ else _) _ _ _
  have hle : getpos geo w k ≤ geo.noPairs := by
    have : getpos geo w k ≤ 0 + geo.noPairs := scan_le _ 0 geo.noPairs
    omega
  split_ifs with h h0
  · trivial
  · rw [wp_bind, wp_store hw, wp_pure]
    exact bval_setkey (n := getpos geo w k - 1) (by omega)
  · rfl

/-- `find_level` ends at the node the memory before the call leads to. -/
theorem findLoop_node (hgeo : geo.Ok) (hk : k.length = geo.keylen) :
    ∀ (rest : List Level) (b : Level), Stack geo t (b :: rest) →
      (∀ l ∈ rest, ∀ r ∈ l, r.es ≠ []) →
      Runs (findLoop geo (.ext k) rest.length t.node)
        (fun a _ => a = nodeFor geo t.mem k rest.length t.node) t := by
  intro rest
  induction rest with
  | nil => exact fun b _ _ => rfl
  | cons u rest ih =>
    intro b h hne
    rw [List.length_cons, findLoop_succ]
    have hne' : ∀ l ∈ rest, ∀ r ∈ l, r.es ≠ [] := fun l hl => hne l (List.mem_cons_of_mem _ hl)
    refine ((ih u h.tail hne').and (findLoop_spec hk rest u h.tail hne'
      (keyAt_ext geo t k) trivial)).bind ?_
    rintro a t1 ⟨ha, u1, rest1, hf⟩
    obtain ⟨P, r, Q, rfl, rfl, hr⟩ := hf.here
    have hrne : r.es ≠ [] := by
      obtain ⟨s, hs, hle⟩ := forall₂_mem_right hf.bottom (show r ∈ P ++ r :: Q by simp)
      rw [← hle.es]
      exact hne u List.mem_cons_self s hs
    -- the descent so far wrote to levels above the node only
    obtain ⟨w, hw, -⟩ := (hf.stack.bottom_holds r (by simp)).words
    have hw0 : t.mem r.addr = some w := by
      obtain ⟨s, hs, hle⟩ := forall₂_mem_right hf.bottom (show r ∈ P ++ r :: Q by simp)
      rw [← hf.ext.mem_eq _ (hle.addr ▸ h.tail.bottom_not_mem hs)
        (hle.addr ▸ (h.tail.bottom_live hs).2), hw]
    have hpairs : 0 < geo.noPairs := by
      have := hgeo.four_le
      omega
    refine ((findStep_spec (hf.under h) hr hrne (keyAt_ext geo t1 k) hk).and
      (findStep_child hw hpairs)).imp ?_
    rintro c t2 ⟨-, rfl⟩
    simp [nodeFor, ← ha, hw0]

/-- `find_level` ends at the leaf the key belongs to, and does not write to it. -/
theorem findLevel_leaf {b : Level} {rest : List Level} (hgeo : geo.Ok) (hk : k.length = geo.keylen)
    (h : Stack geo t (b :: rest)) (hne : ∀ l ∈ rest, ∀ r ∈ l, r.es ≠ [])
    (hlen : t.height = 1 + rest.length) :
    Runs (findLevel geo (.ext k) 1) (fun a t' => (∃ b' rest', Found geo t k b rest a t' b' rest') ∧
      ∃ w, t'.mem a = some w ∧ t.leafFor geo k = some w) t := by
  have hnode : Runs (findLevel geo (.ext k) 1)
      (fun a t' => (∃ b' rest', Found geo t k b rest a t' b' rest') ∧
        a = nodeFor geo t.mem k rest.length t.node) t := by
    refine (findLevel_spec hk h hne (keyAt_ext geo t k) trivial hlen).and
      (E := fun _ _ => True) ?_
    unfold findLevel
    rw [wp_bind, wp_get, hlen, Nat.add_sub_cancel_left]
    refine Wp.bind ((findLoop_node hgeo hk rest b h hne).mono (fun _ _ ha => ha)
      fun _ _ hf => hf.elim) ?_
    rintro a t' rfl
    split_ifs
    · trivial
    · rfl
  refine hnode.imp ?_
  rintro a t' ⟨⟨b', rest', hf⟩, ha⟩
  refine ⟨⟨b', rest', hf⟩, ?_⟩
  obtain ⟨P, r, Q, rfl, hr, -⟩ := hf.here
  obtain ⟨w, hw, -⟩ := (hf.stack.bottom_holds r (by simp)).words
  obtain ⟨s, hs, hle⟩ := forall₂_mem_right hf.bottom (show r ∈ P ++ r :: Q by simp)
  have hw0 : t.mem r.addr = some w := by
    rw [← hf.ext.mem_eq _ (hle.addr ▸ h.bottom_not_mem hs) (hle.addr ▸ (h.bottom_live hs).2), hw]
  refine ⟨w, hr ▸ hw, ?_⟩
  rw [Tree.leafFor, if_neg (by omega), show t.height - 1 = rest.length by omega, ← ha, ← hr, hw0]

end Descent

/-! ## The removal -/

/-- The key is mistaken for a stored one in the leaf it belongs to. -/
def Lost (geo : Geo) (t : Tree) (k : Key) : Prop :=
  ∃ w, t.leafFor geo k = some w ∧ Mistaken geo w k

section Removal

variable {geo : Geo} {t : Tree} {k : Key} {P Q b : Level} {r : Span Key} {rest : List Level}
  {m : OrdMap Key Nat} {fuel : Nat}

/-- A key that is mistaken for a stored one takes the last pair of the leaf. -/
theorem removeBody_mistaken {w : Node} {A : Entries} {e : Key × Nat} (hgeo : geo.Ok)
    (ih : ∀ u tl, rest = u :: tl → ∀ tl' : List Level, tl'.length = tl.length →
      Removes geo fuel tl')
    (h : Stack geo t ((P ++ r :: Q) :: rest)) (hocc : Occ 1 ((P ++ r :: Q) :: rest))
    (hw : t.mem r.addr = some w) (hes : r.es = A ++ [e]) (hr : r.rng k)
    (hk : k.length = geo.keylen) (habs : ∀ e ∈ r.es, e.1 ≠ k) (hmis : Mistaken geo w k)
    (hlen : t.height = 1 + rest.length) :
    Runs (removeBody geo fuel (.ext k) 1 t.height r.addr) (fun _ t' =>
      (∃ b' rest', Removed geo 1 1 (without P r A [] Q) (addrs ((P ++ r :: Q) :: rest))
        t t' b' rest') ∨
        Vanished 1 (without P r A [] Q) (addrs ((P ++ r :: Q) :: rest)) t t') t := by
  have hold := h.bottom_holds r (by simp)
  have hrep := hold.rep hw
  obtain ⟨hcmp, hend⟩ := keycmp_absent hrep hold.ok.sorted hk habs
  have hpos := hend hmis
  have hcmp := hcmp.2 hmis
  have hfill : getfill geo w r.es.length = A.length + 1 := by
    rw [hrep.getfill (Nat.le_refl _), hes]
    simp
  have hlen' : r.es.length = A.length + 1 := by simp [hes]
  rw [hpos] at hcmp
  rw [hes] at hrep
  have hok := without_ok hold.ok (show r.es = A ++ (e.1, e.2) :: [] from hes)
  have hgone := hrep.remove_end
  rw [← List.append_nil A] at hgone
  have hst1 := h.store_bottom (show (⟨r.addr, r.rng, A ++ []⟩ : Span Key).addr = r.addr from rfl)
    (fun _ hx => hx) hgone hok
  unfold removeBody
  simp only [Runs, readKey, wp_bind, wp_pure, wp_load hw, hpos, hfill, hcmp, ne_eq,
    not_true_eq_false, and_false, if_false]
  rw [if_neg (by omega), wp_bind, wp_store hw, wp_bind, hlen', Nat.add_sub_cancel]
  simp only [List.append_nil] at hst1 ⊢
  refine (repair_spec hgeo ih hst1 hocc ?_ (Or.inl ⟨rfl, rfl⟩) (keyAt_ext _ _ k) hr hk
    trivial hlen).imp fun _ t' hd => ?_
  · rw [hlen']
  · have hw : without P r A [] Q = P ++ ⟨r.addr, r.rng, A⟩ :: Q := by simp [without]
    exact repaired_of_store (by rwa [hw])

/-- The removal of an absent key changes nothing, or it takes another pair away. -/
theorem btreeRemove_absent (hgeo : geo.Ok) (h : Stores geo t m) (hk : k.length = geo.keylen)
    (habs : m.get k = none) :
    Runs (btreeRemove geo (.ext k)) (fun r t' => (¬ Lost geo t k ∧ r = 0 ∧ Stores geo t' m) ∨
      (Lost geo t k ∧ ∃ e ∈ m.entries, Stores geo t' (m.erase e.1))) t := by
  unfold btreeRemove fuelFor
  rw [Runs, wp_bind, wp_get]
  cases h with
  | empty hm hnode hheight hnext =>
    rw [if_pos hheight, wp_pure]
    refine Or.inl ⟨?_, rfl, .empty hm hnode hheight hnext⟩
    rintro ⟨w, hw, -⟩
    simp [Tree.leafFor, hheight] at hw
  | levels b rest stack occ hheight hm =>
    rw [if_neg (by omega), ← Runs, removeLevel_body (by omega)]
    refine (findLevel_leaf hgeo hk stack (fun l hl => occ.nonempty l (List.mem_cons_of_mem _ hl))
      hheight).bind ?_
    rintro a t1 ⟨⟨b1, rest1, hf⟩, w, hw, hleaf⟩
    obtain ⟨P, r, Q, rfl, rfl, hr⟩ := hf.here
    have hold := hf.stack.bottom_holds r (by simp)
    have hm1 : m.entries = (P ++ r :: Q).flatMap Span.es := by rw [hm, spans_le_entries hf.bottom]
    have hocc1 := occ.of_shape (spans_le_sameShape hf.bottom) hf.shape
    have hh1 : t1.height = 1 + rest1.length := by
      rw [hf.head.height, hheight, hf.shape.length_eq]
    have hnot : ∀ e ∈ r.es, e.1 ≠ k := by
      intro e he
      refine OrdMap.get_eq_none.1 habs e ?_
      rw [hm1]
      exact List.mem_flatMap.2 ⟨r, by simp, he⟩
    have hlost : Lost geo t k ↔ Mistaken geo w k := by
      simp [Lost, hleaf]
    obtain ⟨hcmp, -⟩ := keycmp_absent (hold.rep hw) hold.ok.sorted hk hnot
    rw [hlost, ← hf.head.height]
    by_cases hmis : Mistaken geo w k
    · have hne : r.es ≠ [] := hocc1.nonempty _ List.mem_cons_self r (by simp)
      obtain ⟨A, e, hes⟩ : ∃ A e, r.es = A ++ [e] :=
        ⟨_, _, (List.dropLast_append_getLast hne).symm⟩
      refine (removeBody_mistaken hgeo ?_ hf.stack hocc1 hw hes hr hk hnot hmis hh1).imp ?_
      · intro u tl htl tl' hlen'
        refine removeLevel_spec hgeo _ _ tl' rfl ?_
        have h1 : rest1.length = tl.length + 1 := by rw [htl, List.length_cons]
        omega
      · intro ret t' hd
        refine Or.inr ⟨hmis, e, ?_, ?_⟩
        · rw [hm1]
          exact List.mem_flatMap.2 ⟨r, by simp, by simp [hes]⟩
        · have hlive := hf.stack.bottom_live (r := r) (by simp)
          refine stores_of_removed (by omega) hd ?_
          refine (OrdMap.erase_entries (A := P.flatMap Span.es ++ A) (B := Q.flatMap Span.es)
            (v := e.2) ?_).trans ?_
          · rw [hm1]
            simp [hes]
          · simp [without]
    · have hne0 : keycmp geo w (getpos geo w k) k ≠ 0 := fun hc => hmis (hcmp.1 hc)
      unfold removeBody
      simp only [readKey, wp_bind, wp_pure, wp_load hw]
      rw [if_pos ⟨trivial, hne0⟩, wp_pure]
      exact Or.inl ⟨hmis, rfl, .levels _ rest1 hf.stack hocc1 hh1 hm1⟩

end Removal

/-! ## Trees that saw removals of absent keys -/

section Build

variable {geo : Geo} {t : Tree}

/-- The trees that insertions of absent keys, with any failing allocations, and removals of any
keys can reach from `btree_init`. -/
inductive Built (geo : Geo) : Tree → Prop
  | init (fails : List Bool) : Built geo (btreeInit fails)
  | insert {t t' : Tree} {k : Key} {v : Nat} {err : Int} (h : Built geo t)
      (hk : k.length = geo.keylen) (habs : ∀ e ∈ t.pairs geo, e.1 ≠ k) (hv : v ≠ 0)
      (hrun : btreeInsert geo (.ext k) v t = .ok err t') : Built geo t'
  | remove {t t' : Tree} {k : Key} {r : Nat} (h : Built geo t) (hk : k.length = geo.keylen)
      (hrun : btreeRemove geo (.ext k) t = .ok r t') : Built geo t'

theorem Built.stores (hgeo : geo.Ok) (h : Built geo t) : ∃ m, Stores geo t m := by
  induction h with
  | init fails => exact ⟨_, stores_init geo fails⟩
  | insert _ hk habs hv hrun ih =>
    obtain ⟨m, hm⟩ := ih
    rw [hm.inv.2, ← OrdMap.get_eq_none] at habs
    rcases (btreeInsert_spec hgeo hm hk habs hv).of_ok hrun with h | h
    · exact ⟨_, h.2.1⟩
    · exact ⟨_, h.2.1⟩
  | @remove t t' k r _ hk hrun ih =>
    obtain ⟨m, hm⟩ := ih
    cases hget : m.get k with
    | none =>
      rcases (btreeRemove_absent hgeo hm hk hget).of_ok hrun with h | ⟨-, e, -, h⟩
      · exact ⟨_, h.2.2⟩
      · exact ⟨_, h⟩
    | some v => exact ⟨_, ((btreeRemove_spec hgeo hm hget).of_ok hrun).2.1⟩

/-- The removal of a key that is not stored returns `NULL` and keeps the pairs just when the key
is not mistaken for a stored one in the leaf it belongs to. -/
theorem remove_absent_iff (geo : Geo) (hgeo : 4 ≤ geo.noPairs) (t : Tree) (h : Built geo t)
    (k : Key) (hk : k.length = geo.keylen) (habs : ∀ e ∈ t.pairs geo, e.1 ≠ k) :
    (∃ t', btreeRemove geo (.ext k) t = .ok 0 t' ∧ ∀ e, e ∈ t'.pairs geo ↔ e ∈ t.pairs geo) ↔
      (t.height = 0 ∨ ∀ w, t.leafFor geo k = some w → ¬ Mistaken geo w k) := by
  obtain ⟨m, hm⟩ := h.stores ⟨hgeo⟩
  have hpairs := hm.inv.2
  rw [hpairs] at habs ⊢
  have hcond : (t.height = 0 ∨ ∀ w, t.leafFor geo k = some w → ¬ Mistaken geo w k) ↔
      ¬ Lost geo t k := by
    unfold Lost
    push Not
    refine ⟨fun h => h.elim (fun h0 w hw => ?_) id, Or.inr⟩
    simp [Tree.leafFor, h0] at hw
  rw [hcond]
  obtain ⟨r, t', hrun, hpost⟩ :=
    (btreeRemove_absent ⟨hgeo⟩ hm hk (OrdMap.get_eq_none.2 habs)).ok
  rcases hpost with ⟨hlost, rfl, hst⟩ | ⟨hlost, e, he, hst⟩
  · exact ⟨fun _ => hlost, fun _ => ⟨t', hrun, fun e => by rw [hst.inv.2]⟩⟩
  · refine ⟨?_, fun hc => absurd hlost hc⟩
    rintro ⟨t1, hrun1, hsame⟩
    rw [hrun] at hrun1
    injection hrun1 with _ ht
    -- the pair that went is still among the pairs before
    have hgone := (hsame e).2 he
    rw [← ht, hst.inv.2, OrdMap.mem_entries, OrdMap.get_erase, if_pos rfl] at hgone
    cases hgone

/-- A leaf of one pair, with unused slots. -/
def oneLeaf (geo : Geo) (k : Key) (v : Nat) : Tree :=
  match btreeInsert geo (.ext k) v (btreeInit []) with
  | .ok _ t => t
  | .error _ t => t

theorem oneLeaf_built : Built (btreeGeo64 64) (oneLeaf (btreeGeo64 64) [5] 1) :=
  .insert (.init []) rfl (by simp [Tree.pairs, btreeInit, leafPairs]) one_ne_zero
    (show btreeInsert (btreeGeo64 64) (.ext [5]) 1 (btreeInit []) = .ok 0 _ from rfl)

/-- Another key than zero is found to be absent. -/
theorem remove_absent_iff_seven :
    ∃ t', btreeRemove (btreeGeo64 64) (.ext [7]) (oneLeaf (btreeGeo64 64) [5] 1) = .ok 0 t' ∧
      ∀ e, e ∈ t'.pairs (btreeGeo64 64) ↔ e ∈ (oneLeaf (btreeGeo64 64) [5] 1).pairs
        (btreeGeo64 64) := by
  have hpairs : (oneLeaf (btreeGeo64 64) [5] 1).pairs (btreeGeo64 64) = [([5], 1)] := by decide
  refine (remove_absent_iff (btreeGeo64 64) (by decide) _ oneLeaf_built [7] rfl
    (by simp [hpairs])).2 (Or.inr fun w hw => ?_)
  have hfill : ((oneLeaf (btreeGeo64 64) [5] 1).leafFor (btreeGeo64 64) [7]).map
      (fun w => getfill (btreeGeo64 64) w 0) = some 1 := by decide
  rw [hw, Option.map_some, Option.some_inj] at hfill
  rintro (⟨h, -⟩ | ⟨hfull, -, -⟩)
  · simp [zeroKey, btreeGeo64, longPerU64] at h
  · rw [hfill] at hfull
    exact absurd hfull (by decide)

/-- Removing the absent key `0` takes the only pair. -/
theorem remove_zero_key_loses_pair :
    ¬ ∀ (geo : Geo) (t : Tree) (k : Key), 4 ≤ geo.noPairs → Built geo t → k.length = geo.keylen →
      (∀ e ∈ t.pairs geo, e.1 ≠ k) →
      ∃ t', btreeRemove geo (.ext k) t = .ok 0 t' ∧ ∀ e, e ∈ t'.pairs geo ↔ e ∈ t.pairs geo := by
  intro h
  have hpairs : (oneLeaf (btreeGeo64 64) [5] 1).pairs (btreeGeo64 64) = [([5], 1)] := by decide
  obtain ⟨t', hrun, hsame⟩ := h (btreeGeo64 64) (oneLeaf (btreeGeo64 64) [5] 1) [0] (by decide)
    oneLeaf_built rfl (by simp [hpairs])
  have hnone : Wp (btreeRemove (btreeGeo64 64) (.ext [0]))
      (fun _ t' => t'.pairs (btreeGeo64 64) = []) (fun _ _ => True)
      (oneLeaf (btreeGeo64 64) [5] 1) := rfl
  have hgone := (hsame ([5], 1)).2 (by simp [hpairs])
  rw [hnone.of_ok hrun] at hgone
  cases hgone

end Build

end Logfs.Btree
